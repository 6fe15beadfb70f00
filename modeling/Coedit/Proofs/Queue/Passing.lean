import Coedit.Queue
import Mathlib.Data.List.Forall2

/-!
# Passing an operation by a list

An operation that passes a list of others is transformed with each of them in turn.  These are the laws of the two
loops, that of an operation of the server past the client's and that of an operation of the client past the server's.

* `passClients_cons_eq_ok`, `passServers_cons_eq_ok` — a loop that ends well, cell by cell;
* `passServers_append` — passing a list is passing its parts in turn;
* `passClients_forall₂`, `passServers_forall₂` — what is passed is rewritten in place, also when the loop gets stuck.
-/

namespace Coedit

variable {ω τ : Type} [Operation ω τ] {s s' c c' : ω} {ss ss' cs cs' : List ω}

/-! ## Loops that end well -/

theorem passClients_cons_eq_ok : passClients s (c :: cs) = (cs', .ok s') ↔
    ∃ s₁ c₁ cs₁, Operation.transform s c = .ok (s₁, c₁) ∧ passClients s₁ cs = (cs₁, .ok s') ∧ cs' = c₁ :: cs₁ := by
  rw [passClients]
  cases Operation.transform s c with
  | error e => simp
  | ok p =>
    obtain ⟨s₁, c₁⟩ := p
    dsimp only
    constructor
    · intro h
      obtain ⟨rfl, hr⟩ := Prod.mk.inj h
      exact ⟨s₁, c₁, _, rfl, Prod.ext rfl hr, rfl⟩
    · rintro ⟨_, _, cs₁, hp, h, rfl⟩
      cases hp
      simp only [h]

theorem passServers_cons_eq_ok : passServers c (s :: ss) = (ss', .ok c') ↔
    ∃ s₁ c₁ ss₁, Operation.transform s c = .ok (s₁, c₁) ∧ passServers c₁ ss = (ss₁, .ok c') ∧ ss' = s₁ :: ss₁ := by
  rw [passServers]
  cases Operation.transform s c with
  | error e => simp
  | ok p =>
    obtain ⟨s₁, c₁⟩ := p
    dsimp only
    constructor
    · intro h
      obtain ⟨rfl, hr⟩ := Prod.mk.inj h
      exact ⟨s₁, c₁, _, rfl, Prod.ext rfl hr, rfl⟩
    · rintro ⟨_, _, ss₁, hp, h, rfl⟩
      cases hp
      simp only [h]

/-- Passing a list is passing its parts in turn. -/
theorem passServers_append (ts : List ω) : ∀ {ss : List ω} {c c' : ω},
    (passServers c ss).2 = .ok c' → (passServers c (ss ++ ts)).2 = (passServers c' ts).2
  | [], _, _, h => by
    cases h
    rfl
  | s :: ss, c, c', h => by
    simp only [passServers, List.cons_append] at h ⊢
    split at h
    next => cases h
    next s' c₁ ht => exact passServers_append ts h

/-! ## What is passed -/

section passed
variable {R : ω → ω → Prop} (stays : ∀ op, R op op)
include stays

/-- What an operation of the server passes is rewritten in place. -/
theorem passClients_forall₂ (step : ∀ {s c s' c' : ω}, Operation.transform s c = .ok (s', c') → R c c') :
    ∀ (cs : List ω) (s : ω), List.Forall₂ R cs (passClients s cs).1
  | [], _ => .nil
  | c :: cs, s => by
    simp only [passClients]
    split
    next => exact .cons (stays c) (List.forall₂_same.2 fun op _ => stays op)
    next s' c' ht => exact .cons (step ht) (passClients_forall₂ step cs s')

/-- What an operation of the client passes is rewritten in place. -/
theorem passServers_forall₂ (step : ∀ {s c s' c' : ω}, Operation.transform s c = .ok (s', c') → R s s') :
    ∀ (ss : List ω) (c : ω), List.Forall₂ R ss (passServers c ss).1
  | [], _ => .nil
  | s :: ss, c => by
    simp only [passServers]
    split
    next => exact .cons (stays s) (List.forall₂_same.2 fun op _ => stays op)
    next s' c' ht => exact .cons (step ht) (passServers_forall₂ step ss c')

end passed

theorem passServers_length (ss : List ω) (c : ω) : (passServers c ss).1.length = ss.length :=
  (passServers_forall₂ (R := fun _ _ => True) (fun _ => trivial) (fun _ => trivial) ss c).length_eq.symm

/-- What operations keep when they are rewritten one by one. -/
theorem map_eq_of_forall₂ {α β : Type} {f : α → β} {l m : List α} (h : List.Forall₂ (fun a b => f b = f a) l m) :
    m.map f = l.map f := by
  induction h with
  | nil => rfl
  | cons hab _ ih => rw [List.map_cons, List.map_cons, hab, ih]

end Coedit
