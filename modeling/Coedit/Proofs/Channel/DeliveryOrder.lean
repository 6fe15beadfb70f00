import Coedit.Proofs.Channel.Accounting
import Coedit.Proofs.Channel.Consuming

/-!
# The order of deltas

Deltas may be told in any order, several at a time and more than once.  A channel takes in each of them once, in its
turn, so what it comes to depends on the revisions that it was told of and not on how it was told of them.

A delta that ends the connection is taken in at the same point whatever the order, but messages that come after it are
not heard any more.  All that may then depend on the order is the head that the closed channel knew of.

* `Channel.supply` — the operation that is taken in as a revision;
* `Channel.Heard` — what a channel came to when it was told of revisions, and `Channel.Heard.delta`;
* `Channel.run_deliveryOrder` — two ways to tell of the same revisions come to the same.
-/

namespace Coedit
namespace Channel

variable {c d d' : Channel} {m : DeltaMessage} {ms ms' : List DeltaMessage} {history : Nat → Composite} {rs rs' : List Nat}
  {revision : Nat} {op : Composite} {source : Nat → Option Composite}

/-! ## Messages -/

/-- The messages tell what the history has under their revisions. -/
def Tell (history : Nat → Composite) (ms : List DeltaMessage) : Prop :=
  ∀ m ∈ ms, ∀ e ∈ m.revisions, e.2 = history e.1

def covered (ms : List DeltaMessage) : List Nat := ms.flatMap fun m => m.revisions.map (·.1)

/-- The operation that a channel takes in as a revision: the one at hand, or else that of the history, if it is told. -/
def supply (c : Channel) (history : Nat → Composite) (rs : List Nat) (revision : Nat) : Option Composite :=
  (c.buffered.get? revision).or (if revision ∈ rs then some (history revision) else none)

theorem supply_nil (c : Channel) (history : Nat → Composite) (r : Nat) : c.supply history [] r = c.buffered.get? r := by
  simp [supply]

theorem supply_append (c : Channel) (history : Nat → Composite) (rs rs' : List Nat) (r : Nat) :
    c.supply history (rs ++ rs') r =
      (c.supply history rs r).or (if r ∈ rs' then some (history r) else none) := by
  simp only [supply, List.mem_append, Option.or_assoc]
  by_cases h : r ∈ rs <;> simp [h]

theorem supply_mono (h : c.supply history rs revision = some op) (rs' : List Nat) :
    c.supply history (rs ++ rs') revision = some op := by
  rw [supply_append, h, Option.some_or]

theorem supply_congr (c : Channel) (history : Nat → Composite) (h : ∀ r, r ∈ rs ↔ r ∈ rs') :
    c.supply history rs = c.supply history rs' := by
  funext r
  simp only [supply, h]

/-- A message puts those of its deltas at hand that are not. -/
theorem keepAll_get? : ∀ (entries : List (Nat × Composite)) (c : Channel), (∀ e ∈ entries, e.2 = history e.1) →
    ∀ r, (entries.foldl keep c).buffered.get? r =
      (c.buffered.get? r).or (if r ∈ entries.map (·.1) then some (history r) else none)
  | [], c, _, r => by simp
  | e :: rest, c, h, r => by
    have he := h e (List.mem_cons_self ..)
    rw [List.foldl_cons, keepAll_get? rest _ (fun e he => h e (List.mem_cons_of_mem _ he)), keep_get?, he,
      Option.or_assoc, List.map_cons]
    congr 1
    by_cases hr : r = e.1
    · rw [if_pos hr, Option.some_or, if_pos (List.mem_cons.2 (.inl hr)), hr]
    · rw [if_neg hr, Option.none_or]
      simp only [List.mem_cons, hr, false_or]

section lengths
variable [Lengths]

/-! ## What the messages come to -/

/-- What a channel came to when it was told of revisions. -/
structure Heard (history : Nat → Composite) (source : Nat → Option Composite) (c : Channel) (rs : List Nat)
    (d : Channel) : Prop where
  orderly : d.Orderly
  phase : d.phase ≠ .waitingSync
  drained : d.Drained
  /-- Deltas were taken in out of the source. -/
  run : Relation.ReflTransGen (Consumes source) c.bare d.bare
  /-- What is still due and was told is at hand. -/
  hand : d.isConnected = true → ∀ r, d.floor < r → d.buffered.get? r = c.supply history rs r
  head : d.isConnected = true → ∀ n, d.knownHead ≤ n ↔ c.knownHead ≤ n ∧ ∀ r ∈ rs, r ≤ n

theorem Heard.refl (history : Nat → Composite) (source : Nat → Option Composite) (hc : c.Orderly) (hd : c.Drained)
    (hphase : c.phase ≠ .waitingSync) : Heard history source c [] c where
  orderly := hc
  phase := hphase
  drained := hd
  run := .refl
  hand _ r _ := (supply_nil c history r).symm
  head _ n := by simp

theorem Heard.congr (h : Heard history source c rs d) (hrs : ∀ r, r ∈ rs ↔ r ∈ rs') : Heard history source c rs' d :=
  { h with
    hand := fun hd r hr => (h.hand hd r hr).trans (congrFun (supply_congr c history hrs) r)
    head := fun hd n => by simp only [h.head hd, hrs] }

omit [Lengths] in
theorem checkSynced_of_ne (h : c.phase ≠ .waitingSync) : c.checkSynced = c := if_pos (by simp [h])

/-- A message adds its revisions. -/
theorem Heard.delta (h : Heard history source c rs d) (hm : ∀ e ∈ m.revisions, e.2 = history e.1)
    (hsource : ∀ r op, c.supply history (rs ++ m.revisions.map (·.1)) r = some op → source r = some op) :
    Heard history source c (rs ++ m.revisions.map (·.1)) (d.delta m) := by
  cases hopen : d.isConnected with
  | false =>
    have hno : d.isConnected ≠ true := Bool.eq_false_iff.1 hopen
    rw [Channel.delta, if_neg hno]
    exact { h with hand := fun hd => absurd hd hno, head := fun hd => absurd hd hno }
  | true =>
    have hears := d.buffer_hears m
    have horderly : (d.buffer m).Orderly := (hears.step (x := .delta m) (isConnected_iff.1 hopen)).orderly h.orderly
    have hphase : (d.buffer m).drain.phase ≠ .waitingSync := mt (buffer_drain_absorbs d m).waiting h.phase
    have hbare : (d.buffer m).bare = d.bare := by rw [hears.eq]; rfl
    have hfloor : (d.buffer m).floor = d.floor := by rw [hears.eq]; rfl
    have hbuffer : ∀ r, d.floor < r →
        (d.buffer m).buffered.get? r = c.supply history (rs ++ m.revisions.map (·.1)) r := by
      intro r hr
      rw [buffer_eq, keepAll_get? _ _ hm, h.hand hopen r hr, supply_append]
    have hall : ConsumesAll source (d.buffer m) (d.buffer m).drain :=
      drain_consumesAll horderly fun _ r op hr hget => hsource r op ((hbuffer r (hfloor ▸ hr)).symm.trans hget)
    have hdelta : d.delta m = (d.buffer m).drain := by
      rw [Channel.delta, if_pos hopen, checkSynced_of_ne hphase]
    rw [hdelta]
    exact
      { orderly := (drain_draining _).orderly horderly
        phase := hphase
        drained := drain_drained horderly
        run := h.run.trans (hbare ▸ hall.run)
        hand := fun hd r hr => by
          have hle := hall.floor hd
          rw [hall.rest hd r hr, hbuffer r (by omega)]
        head := fun hd n => by
          rw [hall.head, buffer_eq, keepAll_knownHead_le, h.head hopen, and_assoc, List.forall_mem_append] }

theorem Heard.run_delta : ∀ (ms : List DeltaMessage) {rs : List Nat} {d : Channel}, Heard history source c rs d →
    Tell history ms → (∀ r op, c.supply history (rs ++ covered ms) r = some op → source r = some op) →
      Heard history source c (rs ++ covered ms) (d.run (ms.map .delta))
  | [], rs, d, h, _, _ => by
    show Heard history source c (rs ++ []) d
    rwa [List.append_nil]
  | m :: ms, rs, d, h, hms, hsource => by
    have hcons : covered (m :: ms) = m.revisions.map (·.1) ++ covered ms := rfl
    rw [hcons, ← List.append_assoc] at hsource ⊢
    have hm := h.delta (hms m (List.mem_cons_self ..)) fun r op hr => hsource r op (supply_mono hr _)
    exact run_delta ms hm (fun m hm => hms m (List.mem_cons_of_mem _ hm)) hsource

/-- Nothing that was told is due any more. -/
theorem Heard.stuck (h : Heard history (c.supply history rs) c rs d) (m : Channel) :
    ¬ Consumes (c.supply history rs) d.bare m := by
  rintro ⟨hopen, op, hop, -⟩
  have hopen : d.isConnected = true := hopen
  have hget := (h.hand hopen (d.floor + 1) (Nat.lt_succ_self _)).trans hop
  have hat : d.buffered.contains (d.floor + 1) = true := by
    rw [Table.contains, hget]
    rfl
  exact Nat.lt_irrefl _ (h.drained _ hat)

theorem Heard.bare_eq (h : Heard history (c.supply history rs) c rs d) (h' : Heard history (c.supply history rs) c rs d') :
    d.bare = d'.bare :=
  eq_of_consumes h.run h'.run h.stuck h'.stuck

/-- What is at hand is told by where the channel stands. -/
theorem Heard.get?_buffered (h : Heard history source c rs d) (r : Nat) :
    d.buffered.get? r = if d.isConnected = true ∧ d.floor < r then c.supply history rs r else none := by
  split
  next hdue => exact h.hand hdue.1 r hdue.2
  next hdue =>
    rw [← Option.not_isSome_iff_eq_none]
    intro hat
    cases hopen : d.isConnected with
    | true => exact hdue ⟨hopen, Nat.lt_of_succ_lt (h.drained r hat)⟩
    | false =>
      have hnone := h.orderly.closed (by simpa [isConnected] using hopen) r
      exact absurd (hnone.symm.trans hat) Bool.false_ne_true

theorem Heard.buffered_eq (h : Heard history source c rs d) (h' : Heard history source c rs d')
    (hbare : d.bare = d'.bare) : d.buffered = d'.buffered := by
  have hopen : d.bare.isConnected = d'.bare.isConnected := congrArg isConnected hbare
  have hfloor : d.bare.floor = d'.bare.floor := congrArg floor hbare
  refine Table.ext_get? fun r => ?_
  rw [h.get?_buffered, h'.get?_buffered, show d.isConnected = d'.isConnected from hopen,
    show d.floor = d'.floor from hfloor]

/-- Deltas in any order come to the same, as long as revisions are counted exactly. -/
theorem eq_of_covered {document : DocumentId} {user : UserId} {session : SessionId} {config : Config}
    {calls : List Call} (hc : (new document user session config).run calls = c) (hphase : c.phase ≠ .waitingSync)
    (history : Nat → Composite) (hms : Tell history ms) (hms' : Tell history ms')
    (hcovered : ∀ r, r ∈ covered ms ↔ r ∈ covered ms') :
    let d := c.run (ms.map .delta)
    let d' := c.run (ms'.map .delta)
    { d with knownHead := d'.knownHead } = d' ∧ (d.isConnected = true → d = d') := by
  intro d d'
  have hnew := new_orderly document user session config
  have horderly : c.Orderly := hc ▸ run_orderly calls hnew
  have hdrained : c.Drained := hc ▸ run_drained calls hnew (new_drained _ _ _ _)
  have hstart := Heard.refl history (c.supply history (covered ms)) horderly hdrained hphase
  have h : Heard history (c.supply history (covered ms)) c (covered ms) d := hstart.run_delta ms hms fun _ _ hr => hr
  have h' : Heard history (c.supply history (covered ms)) c (covered ms) d' := by
    refine (hstart.run_delta ms' hms' fun r op hr => ?_).congr fun r => (hcovered r).symm
    rwa [supply_congr c history hcovered]
  have hbare := h.bare_eq h'
  have hbuffered := h.buffered_eq h' hbare
  have heq : { d with knownHead := d'.knownHead } = d' := by
    calc { d with knownHead := d'.knownHead }
      _ = { d.bare with buffered := d.buffered, knownHead := d'.knownHead } := rfl
      _ = { d'.bare with buffered := d'.buffered, knownHead := d'.knownHead } := by rw [hbare, hbuffered]
      _ = d' := rfl
  refine ⟨heq, fun hd => ?_⟩
  have hopen : d.bare.isConnected = d'.bare.isConnected := congrArg isConnected hbare
  have hhead : d.knownHead = d'.knownHead :=
    eq_of_forall_ge_iff fun n => (h.head hd n).trans (h'.head (hopen.symm.trans hd) n).symm
  rw [← heq, ← hhead]

end lengths

def submitting : List Call := [.connect 5, .submit (typed 0 0 'a'), .flush]

/-- The edit is applied twice by mistake, before an edit of another session. -/
def applied (revision : Nat) : Composite :=
  let author := if revision = 8 then "them" else "me"
  { typed 0 0 'a' with origin := ⟨some ⟨author⟩, some ⟨author⟩⟩, revision := some revision }

/-- One at a time, the last one first and one of them twice. -/
def scattered : List DeltaMessage :=
  [told "them" 8 (typed 0 0 'a'), told "me" 6 (typed 0 0 'a'), told "me" 6 (typed 0 0 'a'), told "me" 7 (typed 0 0 'a')]

/-- The first two at once. -/
def gathered : List DeltaMessage :=
  [⟨⟨"me"⟩, ⟨"me"⟩, 7, [typed 0 0 'a', typed 0 0 'a']⟩, told "them" 8 (typed 0 0 'a')]

section words
attribute [local instance] Lengths.word Revisions.word

/-- Two edits of another session, up to the last revision. -/
def atLast (split : Bool) : List DeltaMessage :=
  if split then [told "them" (lastRevision - 1) (typed 0 0 'a'), told "them" lastRevision (typed 1 1 'b')]
  else [⟨⟨"them"⟩, ⟨"them"⟩, lastRevision, [typed 0 0 'a', typed 1 1 'b']⟩]

/-- The history that they are told of. -/
def lastTwo (revision : Nat) : Composite :=
  { (if revision = lastRevision then typed 1 1 'b' else typed 0 0 'a') with
    origin := ⟨some ⟨"them"⟩, some ⟨"them"⟩⟩
    revision := some revision }

end words

end Channel
end Coedit
