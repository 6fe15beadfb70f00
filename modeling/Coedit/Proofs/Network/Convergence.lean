import Coedit.Proofs.Document.Agreement
import Coedit.Proofs.Message
import Coedit.Proofs.Network.Serve
import Mathlib.Data.Finsupp.Weight

/-!
# Sessions converge

Every move of a network can be made, whatever order edits, timers, requests, broadcasts and replies come in, and once
a session has heard everything and has nothing left to send its document is the server's.

* `Network.Consistent` — the invariant: every session rests in the history of the server, and knows what it heard;
* `Network.perform_consistent` — every move that is due succeeds and keeps it;
* `Network.reachable_converges` — so sessions converge.
-/

namespace Coedit

/-- The shape that objects of a kind have. No reference is edited, so none needs an object of its own. -/
def Kind.shape (target : ObjectId) : Kind → Shape
  | .text => .text
  | .list => .list
  | .map => .map
  | .reference => .reference target false

/-- The schema under which each object is used as what it is. -/
def Schema.ofKinds (kinds : ObjectId → Kind) : Schema := fun target => (kinds target).shape target

theorem TargetedOp.fits_ofKinds [Lengths] {kinds : ObjectId → Kind} {c : TargetedOp} (hf : c.op.Fits)
    (hk : c.op.kind = kinds c.target) (hr : kinds c.target ≠ .reference) : c.Fits (.ofKinds kinds) := by
  refine ⟨?_, hf⟩
  unfold Schema.ofKinds
  rw [← hk] at hr ⊢
  cases hop : c.op with
  | text e => rfl
  | list e => rfl
  | map u => rfl
  | reference s =>
    rw [hop] at hr
    exact absurd rfl hr

namespace Network

open Channel Session

section fits
variable [L : Lengths] [R : Revisions] {ι : Type} [DecidableEq ι] {σ : Schema} {members : ι → Member} {n n' : Network ι}
  {i : ι} {s : Session Document} {pending pending' : ι →₀ ℕ} {inserted inserted' added : Nat}

/-- What is around the session of a member, whose edits may still add `pending` elements. -/
def setting (n : Network ι) (members : ι → Member) (pending : ι →₀ ℕ) (i : ι) : Setting where
  user := (members i).user
  session := (members i).session
  history := n.server.history
  heads := (n.replies i).map (·.2)
  mail := (n.sessions i).mail
  document := (n.sessions i).target
  pending := pending i

/-- The invariant of a network in which edits inserted so many elements. -/
structure Consistent (σ : Schema) (members : ι → Member) (pending : ι →₀ ℕ) (inserted : Nat) (n : Network ι) : Prop where
  /-- The document of the server is what the history makes of an empty one. -/
  server : (Composite.calculus σ).Chain n.server.history .empty n.server.document
  sessions : ∀ i, (n.sessions i).Rests σ (n.setting members pending i)
  /-- What was inserted is in the history, or pending, or was deleted again. -/
  ledger : Composite.insertLengths n.server.history + pending.degree ≤ inserted
  told : ∀ m ∈ n.broadcasts, m.revision ≤ n.server.head
  /-- Broadcasts tell the history. -/
  recorded : ∀ m ∈ n.broadcasts, ∀ e ∈ m.revisions (R := .exact), Records n.server.history e.1 e.2
  /-- Every revision was broadcast. -/
  announced : ∀ r, 0 < r → r ≤ n.server.head →
    ∃ (k : Nat) (m : DeltaMessage) (op : Composite), n.broadcasts[k]? = some m ∧ (r, op) ∈ m.revisions (R := .exact)
  /-- Sessions know what they heard. -/
  heard : ∀ i, ∀ k ∈ n.heard i, ∃ m, n.broadcasts[k]? = some m ∧
    ∀ e ∈ m.revisions (R := .exact), (n.sessions i).channel.Knows e.1

omit R [DecidableEq ι] in
/-- What is around a session was inserted. -/
theorem Consistent.total_le (h : n.Consistent σ members pending inserted) (i : ι) :
    (n.setting members pending i).total ≤ inserted :=
  Nat.le_trans (Nat.add_le_add_left (Finsupp.le_degree i pending) _) h.ledger

/-! ## Moves of one session -/

omit R in
/-- A session rests again and knows what it knew and has now heard. What the other sessions may add is as before. -/
theorem put_consistent (h : n.Consistent σ members pending inserted)
    (hr : Resumes σ (n.setting members pending' i) (n.sessions i) s) (hp : ∀ j, j ≠ i → pending' j = pending j)
    (hledger : Composite.insertLengths n.server.history + pending'.degree ≤ inserted') {heard : List Nat}
    (hk : ∀ k ∈ heard, ∃ m, n.broadcasts[k]? = some m ∧
      ∀ e ∈ m.revisions (R := .exact), s.channel.Knows e.1) :
    ∃ n', put { n with heard := Function.update n.heard i heard } i s = .ok n' ∧
      n'.Consistent σ members pending' inserted' := by
  refine ⟨{ n with heard := Function.update n.heard i heard, sessions := Function.update n.sessions i s }, ?_, ?_⟩
  · rw [put, hr.rests.hasEnded]
    rfl
  · refine
      { server := h.server
        sessions := fun j => ?_
        ledger := hledger
        told := h.told
        recorded := h.recorded
        announced := h.announced
        heard := fun j => ?_ }
    · by_cases hj : j = i
      · subst hj
        simp only [Function.update_self]
        exact hr.rests.of_around rfl
      · simp only [Function.update_of_ne hj]
        refine (h.sessions j).of_around ?_
        simp only [around, setting, Function.update_of_ne hj, hp j hj]
    · by_cases hj : j = i
      · subst hj
        simp only [Function.update_self]
        exact hk
      · simp only [Function.update_of_ne hj]
        exact h.heard j

omit R [DecidableEq ι] in
/-- What a session heard it still knows. -/
theorem Consistent.still_heard {w : Setting} (h : n.Consistent σ members pending inserted)
    (hr : Resumes σ w (n.sessions i) s) :
    ∀ k ∈ n.heard i, ∃ m, n.broadcasts[k]? = some m ∧ ∀ e ∈ m.revisions (R := .exact), s.channel.Knows e.1 := by
  intro k hk
  obtain ⟨m, hm, hknows⟩ := h.heard i k hk
  exact ⟨m, hm, fun e he => hr.knows e.1 (hknows e he)⟩

omit R in
/-- A session rests again without having heard a broadcast. -/
theorem put_consistent_unheard (h : n.Consistent σ members pending inserted)
    (hr : Resumes σ (n.setting members pending i) (n.sessions i) s) :
    ∃ n', n.put i s = .ok n' ∧ n'.Consistent σ members pending inserted := by
  have hput := put_consistent h hr (fun _ _ => rfl) h.ledger (h.still_heard hr)
  rwa [Function.update_eq_self] at hput

/-- What an edit inserts is pending. -/
theorem edit_consistent {op : Composite} (h : n.Consistent σ members pending inserted)
    (hL : L.arithmetic.Fits (inserted + op.insertLength)) (hf : ∀ c ∈ op.components, c.Fits σ) {d : Document}
    (hd : op.apply (n.sessions i).target = .ok d) :
    ∃ n', n.perform (.edit i op) = .ok n' ∧
      n'.Consistent σ members (pending + .single i op.insertLength) (inserted + op.insertLength) := by
  have hw : L.arithmetic.Fits ((n.setting members pending i).total + op.insertLength) :=
    hL.of_le (Nat.add_le_add_right (h.total_le i) _)
  obtain ⟨s, hs, hr⟩ := edit_resumes (h.sessions i) hw hf hd
  have hsetting : n.setting members (pending + .single i op.insertLength) i =
      { n.setting members pending i with pending := (n.setting members pending i).pending + op.insertLength } := by
    simp [setting]
  have hledger : Composite.insertLengths n.server.history + (pending + .single i op.insertLength).degree ≤
      inserted + op.insertLength := by
    have := h.ledger
    rw [map_add, Finsupp.degree_single]
    omega
  have hput := put_consistent h (hsetting ▸ hr) (fun j hj => by simp [Ne.symm hj]) hledger (h.still_heard hr)
  rw [Function.update_eq_self] at hput
  obtain ⟨n', hn, h'⟩ := hput
  refine ⟨n', ?_, h'⟩
  simp only [perform, hs, hn]

/-- A broadcast reaches a session, whatever reached it before. -/
theorem broadcast_consistent (h : n.Consistent σ members pending inserted) (hL : L.arithmetic.Fits inserted)
    (hR : R.arithmetic.Fits (n.server.head + 1)) (k : Nat) :
    ∃ n', n.perform (.broadcast i k) = .ok n' ∧ n'.Consistent σ members pending inserted := by
  simp only [perform]
  cases hm : n.broadcasts[k]? with
  | none => exact ⟨n, rfl, h⟩
  | some m =>
    have hmem := List.mem_of_getElem? hm
    obtain ⟨hr, hknown⟩ := delta_resumes (h.sessions i) h.server (hL.of_le (h.total_le i)) hR (h.told m hmem)
      (h.recorded m hmem)
    refine put_consistent h hr (fun _ _ => rfl) h.ledger fun k' hk' => ?_
    rcases List.mem_cons.1 hk' with rfl | hk'
    · exact ⟨m, hm, hknown⟩
    · exact h.still_heard hr k' hk'

/-- A reply reaches a session, the present one or an old one. -/
theorem reply_consistent (h : n.Consistent σ members pending inserted) (hL : L.arithmetic.Fits inserted)
    (hR : R.arithmetic.Fits (n.server.head + 1)) (k : Nat) :
    ∃ n', n.perform (.reply i k) = .ok n' ∧ n'.Consistent σ members pending inserted := by
  simp only [perform]
  cases hm : (n.replies i)[k]? with
  | none => exact ⟨n, rfl, h⟩
  | some reply =>
    obtain ⟨version, head⟩ := reply
    have hhead : head ∈ (n.setting members pending i).heads := List.mem_map.2 ⟨_, List.mem_of_getElem? hm, rfl⟩
    exact put_consistent_unheard h
      (submitAcked_resumes (h.sessions i) h.server (hL.of_le (h.total_le i)) hR version hhead)

/-! ## The server's move -/

omit L R in
theorem revisions_single (session : SessionId) (user : UserId) {head : Nat} {op : Composite} {u : UserId}
    {s : SessionId} (ho : op.origin = ⟨some u, some s⟩) :
    (DeltaMessage.mk session user (head + 1) [op]).revisions (R := .exact) =
      [(head + 1, op.withRevision (head + 1))] := by
  rw [DeltaMessage.revisions_eq, if_neg (by simp)]
  simp [DeltaMessage.attributed, ho, Composite.withRevision]

omit L R in
/-- The last operation of a history. -/
theorem records_last (history : List Composite) (op : Composite) :
    Records (history ++ [op]) (history.length + 1) (op.withRevision (history.length + 1)) :=
  ⟨history.length, op, List.getElem?_concat_length, rfl, rfl⟩

/-- The network after the server applied an operation, announced it by `m` and answered the session, which is `s` by
then. -/
def served (n : Network ι) (i : ι) (version : Nat) (echo : Composite) (document : Document) (m : DeltaMessage)
    (s : Session Document) : Network ι where
  server := ⟨n.server.history ++ [echo], document⟩
  sessions := Function.update n.sessions i s
  broadcasts := n.broadcasts ++ [m]
  replies := Function.update n.replies i (n.replies i ++ [(version, n.server.head + 1)])
  heard := n.heard

omit R in
/-- Broadcasts go on telling the history, all of it. -/
theorem served_announced (h : n.Consistent σ members pending inserted) {version : Nat} {echo : Composite}
    {document : Document} {m : DeltaMessage}
    (hm : m.revisions (R := .exact) = [(n.server.head + 1, echo.withRevision (n.server.head + 1))]) {r : Nat}
    (hpos : 0 < r) (hr : r ≤ (n.served i version echo document m s).server.head) :
    ∃ (k : Nat) (m' : DeltaMessage) (op : Composite),
      (n.broadcasts ++ [m])[k]? = some m' ∧ (r, op) ∈ m'.revisions (R := .exact) := by
  by_cases hold : r ≤ n.server.head
  · obtain ⟨k, m', op, hk, hop⟩ := h.announced r hpos hold
    refine ⟨k, m', op, ?_, hop⟩
    rw [List.getElem?_append_left (List.getElem?_eq_some_iff.1 hk).1, hk]
  · have hr : r ≤ (n.server.history ++ [echo]).length := hr
    rw [List.length_append, List.length_singleton] at hr
    have hlast : r = n.server.head + 1 := by
      unfold Server.head at *
      omega
    refine ⟨n.broadcasts.length, m, echo.withRevision r, List.getElem?_concat_length, ?_⟩
    rw [hm, hlast]
    exact List.mem_cons_self ..

omit R in
/-- The session finds its operation served; the other sessions have one more ahead of them. -/
theorem served_consistent (hd : Function.Injective fun i => (members i).session)
    (h : n.Consistent σ members (pending + .single i added) inserted) {version : Nat} {echo : Composite}
    {document : Document} {m : DeltaMessage} (htold : m.revision = n.server.head + 1)
    (hm : m.revisions (R := .exact) = [(n.server.head + 1, echo.withRevision (n.server.head + 1))])
    (hchain : (Composite.calculus σ).Chain (n.server.history ++ [echo]) .empty document)
    (hfrom : echo.IsFrom (members i).session) (hcost : echo.insertLength = added)
    (hs : s.Rests σ { (n.setting members pending i).extend echo with
      heads := (n.setting members pending i).heads ++ [n.server.head + 1] })
    (hk : ∀ revision, (n.sessions i).channel.Knows revision → s.channel.Knows revision) :
    (n.served i version echo document m s).Consistent σ members pending inserted where
  server := hchain
  ledger := by
    have := h.ledger
    rw [map_add, Finsupp.degree_single] at this
    show Composite.insertLengths (n.server.history ++ [echo]) + pending.degree ≤ inserted
    rw [Composite.insertLengths_append, Composite.insertLengths_cons, Composite.insertLengths_nil]
    omega
  sessions := by
    intro j
    by_cases hj : j = i
    · subst hj
      have hheads : (n.replies j ++ [(version, n.server.head + 1)]).map (·.2) =
          (n.setting members pending j).heads ++ [n.server.head + 1] := List.map_append
      simp only [served, setting, Function.update_self, hheads]
      exact hs.of_around rfl
    · have hother : ¬ echo.IsFrom (n.setting members pending j).session := fun hfrom' =>
        hj (hd (Option.some.inj (hfrom'.symm.trans hfrom)))
      have hrests := h.sessions j
      have hpending : (pending + .single i added) j = pending j := by simp [Ne.symm hj]
      rw [setting, hpending] at hrests
      simp only [served, setting, Function.update_of_ne hj]
      exact (hrests.extend hother).of_around rfl
  told := by
    intro m' hm'
    show m'.revision ≤ (n.server.history ++ [echo]).length
    rw [List.length_append, List.length_singleton]
    rcases List.mem_append.1 hm' with hm' | hm'
    · exact Nat.le_succ_of_le (h.told m' hm')
    · rw [List.mem_singleton.1 hm', htold]
      exact Nat.le_refl _
  recorded := by
    intro m' hm' e he
    rcases List.mem_append.1 hm' with hm' | hm'
    · exact (h.recorded m' hm' e he).append [echo]
    · rw [List.mem_singleton.1 hm', hm] at he
      rw [List.mem_singleton.1 he]
      exact records_last n.server.history echo
  announced := fun _ hpos hr => served_announced h hm hpos hr
  heard := by
    intro j k hj
    obtain ⟨m', hm', hknows⟩ := h.heard j k hj
    refine ⟨m', ?_, fun e he => ?_⟩
    · exact (List.getElem?_append_left (List.getElem?_eq_some_iff.1 hm').1).trans hm'
    · have hknows := hknows e he
      by_cases hj : j = i
      · subst hj
        simp only [served, Function.update_self]
        exact hk e.1 hknows
      · simp only [served, Function.update_of_ne hj]
        exact hknows

/-- The server takes in a request and tells all sessions. What it applied is no longer pending. -/
theorem submit_consistent (hd : Function.Injective fun i => (members i).session)
    (h : n.Consistent σ members pending inserted) (hL : L.arithmetic.Fits inserted) {version : Nat}
    {request : DeltaRequest} {rest : List Outbound} (ho : (n.sessions i).outbound = .submit version request :: rest) :
    ∃ n', n.perform (.serve i) = .ok n' ∧ ∃ pending', n'.Consistent σ members pending' inserted := by
  obtain ⟨echo, document, user, hsubmit, hchain, horigin, hcost, hrests⟩ :=
    (h.sessions i).serve (hL.of_le (h.total_le i)) rfl h.server ho
  have hended : hasEnded { n.sessions i with outbound := rest } = false := hrests.hasEnded
  have hfrom : echo.IsFrom (members i).session := congrArg Origin.session horigin
  have hsplit : pending - .single i echo.insertLength + .single i echo.insertLength = pending :=
    tsub_add_cancel_of_le (Finsupp.single_le_iff.2 hcost)
  refine ⟨n.served i version echo document ⟨request.session, user, n.server.head + 1, [echo]⟩
    { n.sessions i with outbound := rest }, ?_, pending - .single i echo.insertLength, ?_⟩
  · simp only [perform, ho, hsubmit, put, hended]
    rfl
  · rw [← hsplit] at h
    refine served_consistent hd h rfl (revisions_single request.session user horigin) hchain hfrom rfl ?_ fun _ hr => hr
    have hpending : (pending - .single i echo.insertLength) i = pending i - echo.insertLength := by simp
    rw [setting, hpending]
    exact hrests

/-- The server's side receives what the session sent first, if anything. -/
theorem serve_consistent (hd : Function.Injective fun i => (members i).session)
    (h : n.Consistent σ members pending inserted) (hL : L.arithmetic.Fits inserted) (i : ι) :
    ∃ n', n.perform (.serve i) = .ok n' ∧ ∃ pending', n'.Consistent σ members pending' inserted := by
  have skipped : ∀ {x : Outbound} {rest : List Outbound}, (n.sessions i).outbound = x :: rest →
      x.submission? = none → ∃ n', n.put i { n.sessions i with outbound := rest } = .ok n' ∧
        ∃ pending', n'.Consistent σ members pending' inserted := by
    intro x rest ho hx
    have hrests : Rests σ (n.setting members pending i) { n.sessions i with outbound := rest } := by
      refine (h.sessions i).passed_on ?_
      rw [mail, ho, List.filterMap_cons_none hx]
    obtain ⟨n', hn, h'⟩ := put_consistent_unheard h ⟨hrests, fun _ hr => hr⟩
    exact ⟨n', hn, pending, h'⟩
  cases ho : (n.sessions i).outbound with
  | nil => exact ⟨n, by simp only [perform, ho], pending, h⟩
  | cons x rest =>
    cases x with
    | submit version request => exact submit_consistent hd h hL ho
    | subscribe document =>
      simp only [perform, ho]
      exact skipped ho rfl
    | unsubscribe document =>
      simp only [perform, ho]
      exact skipped ho rfl
    | requestRevision version document since =>
      simp only [perform, ho]
      exact skipped ho rfl

/-! ## Runs -/

omit R [DecidableEq ι] in
theorem start_consistent (document : DocumentId) : (start document members).Consistent σ members 0 0 where
  server := Document.same_empty σ
  sessions i :=
    (connect_rests document (members i).user (members i).session (members i).config).of_around rfl
  ledger := Nat.le_refl 0
  told _ hm := absurd hm List.not_mem_nil
  recorded _ hm := absurd hm List.not_mem_nil
  announced _ hpos hr := absurd (Nat.lt_of_lt_of_le hpos hr) (Nat.lt_irrefl 0)
  heard _ _ hk := absurd hk List.not_mem_nil

variable {kinds : ObjectId → Kind} {document : DocumentId}

/-- Every move that is due can be made, as long as what it inserts and the next revision fit. -/
theorem perform_consistent (hd : Function.Injective fun i => (members i).session)
    (h : n.Consistent (.ofKinds kinds) members pending inserted) {m : Move ι} (hm : n.Due kinds m)
    (hL : L.arithmetic.Fits (inserted + m.insertLength)) (hR : R.arithmetic.Fits (n.server.head + 1)) :
    ∃ n', n.perform m = .ok n' ∧
      ∃ pending', n'.Consistent (.ofKinds kinds) members pending' (inserted + m.insertLength) := by
  have kept : ∀ {r : Except Failure (Network ι)},
      (∃ n', r = .ok n' ∧ n'.Consistent (.ofKinds kinds) members pending inserted) →
        ∃ n', r = .ok n' ∧ ∃ pending', n'.Consistent (.ofKinds kinds) members pending' inserted :=
    fun ⟨n', hn, h'⟩ => ⟨n', hn, pending, h'⟩
  cases m with
  | edit i op =>
    obtain ⟨hf, ⟨d, hop⟩, hkinds⟩ := hm
    obtain ⟨n', hn, h'⟩ := edit_consistent h hL
      (fun c hc => TargetedOp.fits_ofKinds (hf c hc) (hkinds c hc).1 (hkinds c hc).2) hop
    exact ⟨n', hn, _, h'⟩
  | beginCompound i => exact kept (put_consistent_unheard h (beginCompound_resumes (h.sessions i)))
  | endCompound i => exact kept (put_consistent_unheard h (endCompound_resumes (h.sessions i)))
  | wait i delay => exact kept (put_consistent_unheard h (wait_resumes (h.sessions i) delay))
  | serve i => exact serve_consistent hd h hL i
  | broadcast i k => exact kept (broadcast_consistent h hL hR k)
  | reply i k => exact kept (reply_consistent h hL hR k)

theorem reachable_consistent (hd : Function.Injective fun i => (members i).session)
    (h : Reachable kinds document members inserted n) (hL : L.arithmetic.Fits inserted)
    (hR : R.arithmetic.Fits (n.server.head + 1)) :
    ∃ pending, n.Consistent (.ofKinds kinds) members pending inserted := by
  induction h with
  | start => exact ⟨0, start_consistent document⟩
  | @move inserted n n' m _ hdue hperform ih =>
    have hhead : n.server.head + 1 ≤ n'.server.head + 1 := Nat.succ_le_succ (perform_head hperform)
    have hR := hR.of_le hhead
    obtain ⟨pending, hn⟩ := ih (hL.of_le (Nat.le_add_right ..)) hR
    obtain ⟨n'', hn'', h'⟩ := perform_consistent hd hn hdue hL hR
    obtain rfl : n'' = n' := Except.ok.inj (hn''.symm.trans hperform)
    exact h'

omit R [DecidableEq ι] in
/-- Once it has heard everything and has nothing left to send, a session is where the server is. -/
theorem Consistent.same (h : n.Consistent σ members pending inserted) (hheard : n.HasHeardAll i)
    (hclean : (n.sessions i).channel.isClean = true) : (n.sessions i).target.Same σ n.server.document := by
  have hrests := h.sessions i
  obtain ⟨y, hy, hb⟩ := hrests.follows.balanced
  have hhead : (n.sessions i).channel.queue.revision = n.server.history.length := by
    refine head_of_knows hrests.follows hrests.drained fun r hpos hr => ?_
    obtain ⟨k, m, op, hk, hop⟩ := h.announced r hpos hr
    obtain ⟨m', hm', hknows⟩ := h.heard i k (hheard k (List.getElem?_eq_some_iff.1 hk).1)
    obtain rfl : m = m' := Option.some.inj (hk.symm.trans hm')
    exact hknows (r, op) hop
  have hy : (Composite.calculus σ).Chain (n.server.history.take (n.sessions i).channel.queue.revision) .empty y := hy
  rw [hhead, List.take_length] at hy
  have hsame : (Composite.calculus σ).Same (n.sessions i).target y :=
    Queue.same_of_balanced hb hclean hrests.serverOps
  exact hsame.trans (hy.unique h.server)

end fits

def pair (second : Bool) : Member :=
  let name := if second then "b" else "a"
  ⟨⟨name⟩, ⟨name⟩, {}⟩

/-- Starts a text and sets a key of a map. -/
def draft (item : Char) (value : Bool) : Composite :=
  .ofComponents [⟨⟨"t"⟩, .text (.insertAt 0 0 [item])⟩, ⟨⟨"m"⟩, .map (.set "k" ⟨.bool value, trivial⟩)⟩]

/-- Both members start the same text. What the server tells reaches the first out of order and twice, and its reply
to the second before either broadcast. -/
def crossing : List (Move Bool) :=
  [.edit false (draft 'x' true), .edit true (draft 'y' false), .wait false 1000, .wait true 1000,
    .serve true, .serve true, .serve false, .serve false, .broadcast false 1, .broadcast false 0, .broadcast false 1,
    .reply true 0, .broadcast true 1, .broadcast true 0]

section words
attribute [local instance] Lengths.word Revisions.word

/-- The network at its start, but for the first session. -/
def besides (s : Session Document) : Network Bool :=
  { start ⟨"d"⟩ pair with sessions := Function.update (start ⟨"d"⟩ pair).sessions false s }

/-- The first session after edits that led to a document. -/
def typing (ops : List Composite) (document : Document) : Session Document :=
  let s := (start ⟨"d"⟩ pair).sessions false
  { s with
    target := document
    channel := { s.channel with
      queue := { s.channel.queue with queued := ops.map (·.withOrigin ⟨"a"⟩ ⟨"a"⟩), fresh := true }
      sendScheduled := true }
    sendDeadline := some (s.now + s.channel.config.sendDelay) }

theorem besides_sessions (s : Session Document) : (besides s).sessions false = s := by simp [besides]

theorem put_besides (s s' : Session Document) : (besides s).put false s' =
    if s'.hasEnded then .error .ended else .ok (besides s') := by simp [put, besides]

theorem perform_besides {s s' : Session Document} {op : Composite} (h : s.handle (.edit op) = (.ok (), s'))
    (hopen : s'.hasEnded = false) : (besides s).perform (.edit false op) = .ok (besides s') := by
  simp only [perform, besides_sessions, h, put_besides, hopen, Bool.false_eq_true, if_false]

/-- Edits that cannot be composed end the session once they are to be sent. -/
theorem wait_typing {fault : ComposeFault} {e e' : TextEdit} (h : e.compose e' = .error fault) (document : Document) :
    ((typing [Composite.onText e, Composite.onText e'] document).wait 1000).hasEnded = true := by
  generalize hs : typing [Composite.onText e, Composite.onText e'] document = s
  have hqueued : s.channel.queue.queued =
      [(Composite.onText e).withOrigin ⟨"a"⟩ ⟨"a"⟩, (Composite.onText e').withOrigin ⟨"a"⟩ ⟨"a"⟩] := hs ▸ rfl
  have hsend : s.channel.queue.send = (.error (.compose fault), { s.channel.queue with queued := [] }) := by
    have hfresh : s.channel.queue.fresh = true := hs ▸ rfl
    have hnone : s.channel.queue.unacked.isEmpty = true := hs ▸ rfl
    simp only [Queue.send, hfresh, hnone, hqueued, Composite.compact_onText_error h, if_true, Bool.not_true,
      Bool.false_eq_true, if_false]
  have hflush : s.channel.flush =
      { s.channel with sendScheduled := false, queue := { s.channel.queue with queued := [] } }.fail (.compose fault) := by
    have hmay : maySend { s.channel with sendScheduled := false } = true := hs ▸ rfl
    simp only [flush, hmay, hsend, if_true]
  have hwait : s.wait 1000 =
      (after { s with now := 1000, sendDeadline := none } s.channel.flush).fireResyncIfDue := hs ▸ rfl
  rw [hwait, hflush]
  exact hs ▸ rfl

end words

end Network
end Coedit
