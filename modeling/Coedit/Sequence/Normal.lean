import Coedit.Arithmetic
import Coedit.Sequence.Component

/-!
# Normal form of component lists

`normalize` brings any list of components to the form in which equal edits are equal lists: the inserts
and deletes between two retains are gathered into at most one insert followed by at most one delete, a
run that deletes what it inserts becomes a retain, adjacent retains merge and empty components vanish.
`IsNormal` states that form on its own.  Where the lengths of merged retains wrap around, a retain of no
elements may be left; all else about the form is `IsArranged`, and `normalize_isArranged` ties it to
`normalize`.  A list may also be brought to normal form from its front to its end: `settleRun` puts a run
behind what is settled already.
-/

namespace Coedit.Component

variable {α : Type}

/-- Puts a retain in front, merged with one that is already there. -/
def retainThen [L : Lengths] (n : Nat) : List (Component α) → List (Component α)
  | retain m :: rest => retain (L.arithmetic.wrap (n + m)) :: rest
  | rest => retain n :: rest

/-- Whether the step inserts or deletes nothing. -/
def isBlank : Component α → Bool
  | retain _ => false
  | insert s => s.isEmpty
  | delete s => s.isEmpty

/-- A list that begins with a retain, if with anything. -/
def RetainFirst : List (Component α) → Prop
  | [] => True
  | c :: _ => c.isRetain = true

theorem retainFirst_retainThen [L : Lengths] (n : Nat) (rest : List (Component α)) : RetainFirst (retainThen n rest) := by
  cases rest with
  | nil => rfl
  | cons c rest => cases c <;> rfl

variable [Element α]

/-- Whether `b` may directly follow `a` in normal form. -/
def mayFollow : Component α → Component α → Bool
  | retain _, retain _ => false
  | insert _, insert _ => false
  | delete _, delete _ => false
  | delete _, insert _ => false
  | insert s, delete t => !(s == t)
  | _, _ => true

/-- Whether `c` may come first before `rest`. -/
def mayPrecede (c : Component α) : List (Component α) → Bool
  | [] => true
  | d :: _ => mayFollow c d

/-- No segment is empty, and neighbours may follow one another. -/
def isArranged : List (Component α) → Bool
  | [] => true
  | c :: rest => !c.isBlank && mayPrecede c rest && isArranged rest

def IsArranged (cs : List (Component α)) : Prop := isArranged cs = true

/-- No component is empty, and neighbours may follow one another. -/
def isNormal : List (Component α) → Bool
  | [] => true
  | c :: rest => !c.isEmpty && mayPrecede c rest && isNormal rest

def IsNormal (cs : List (Component α)) : Prop := isNormal cs = true

theorem isArranged_cons {c : Component α} {rest : List (Component α)} :
    IsArranged (c :: rest) ↔ c.isBlank = false ∧ mayPrecede c rest = true ∧ IsArranged rest := by
  simp [IsArranged, isArranged, and_assoc]

theorem isNormal_cons {c : Component α} {rest : List (Component α)} :
    IsNormal (c :: rest) ↔ c.isEmpty = false ∧ mayPrecede c rest = true ∧ IsNormal rest := by
  simp [IsNormal, isNormal, and_assoc]

omit [Element α] in
theorem isEmpty_eq_false_iff {c : Component α} : c.isEmpty = false ↔ c.isBlank = false ∧ c ≠ retain 0 := by
  cases c <;> simp [isEmpty, isBlank]

/-- Normal form is the arrangement without retains of no elements. -/
theorem isNormal_iff : ∀ {cs : List (Component α)}, IsNormal cs ↔ IsArranged cs ∧ retain 0 ∉ cs
  | [] => by simp [IsNormal, isNormal, IsArranged, isArranged]
  | c :: cs => by
    rw [isNormal_cons, isArranged_cons, isNormal_iff, isEmpty_eq_false_iff, List.mem_cons, not_or]
    constructor
    · rintro ⟨⟨hb, hz⟩, hm, hr, hzs⟩
      exact ⟨⟨hb, hm, hr⟩, Ne.symm hz, hzs⟩
    · rintro ⟨⟨hb, hm, hr⟩, hz, hzs⟩
      exact ⟨⟨hb, Ne.symm hz⟩, hm, hr, hzs⟩

theorem isArranged_of_append {cs rest : List (Component α)} (h : IsArranged (cs ++ rest)) : IsArranged rest := by
  induction cs with
  | nil => exact h
  | cons c cs ih => exact ih (isArranged_cons.1 h).2.2

/-- An arrangement may be extended at its end by what may follow its last component. -/
theorem isArranged_concat {c : Component α} {cs : List (Component α)} :
    IsArranged (cs ++ [c]) ↔ IsArranged cs ∧ c.isBlank = false ∧ ∀ d ∈ cs.getLast?, mayFollow d c = true := by
  induction cs with
  | nil => simp [IsArranged, isArranged, mayPrecede]
  | cons d cs ih =>
    rw [List.cons_append, isArranged_cons, isArranged_cons, ih]
    cases cs with
    | nil => simp [IsArranged, isArranged, mayPrecede, and_comm]
    | cons e cs => simp only [List.cons_append, mayPrecede, List.getLast?_cons_cons, and_assoc]

theorem mayPrecede_of_retainFirst {c : Component α} (hc : c.isRetain = false) :
    ∀ {rest : List (Component α)}, RetainFirst rest → mayPrecede c rest = true
  | [], _ => rfl
  | d :: _, h => by
    cases d <;> simp [RetainFirst, isRetain] at h
    cases c <;> simp [mayPrecede, mayFollow, isRetain] at hc ⊢

theorem afterDelete_isArranged {del : List α} {rest : List (Component α)} (hr : RetainFirst rest)
    (hn : IsArranged rest) : IsArranged (afterDelete del rest) := by
  unfold afterDelete
  split
  · exact hn
  next hd => exact isArranged_cons.2 ⟨by simpa [isBlank] using hd, mayPrecede_of_retainFirst rfl hr, hn⟩

/-! ## From the end -/

section normalize
variable [L : Lengths]

/-- Puts a run in front, which inserts `ins` and deletes `del` between two retains. -/
def runThen (ins del : List α) (rest : List (Component α)) : List (Component α) :=
  if ins.isEmpty then afterDelete del rest
  else if ins == del then retainThen ins.length rest
  else insert ins :: afterDelete del rest

/-- Normalizes components that follow a run which so far inserts `ins` and deletes `del`. -/
def normalizeAfter (ins del : List α) : List (Component α) → List (Component α)
  | [] => runThen ins del []
  | retain n :: rest =>
    if n = 0 then normalizeAfter ins del rest
    else runThen ins del (retainThen n (normalizeAfter [] [] rest))
  | insert s :: rest => normalizeAfter (ins ++ s) del rest
  | delete s :: rest => normalizeAfter ins (del ++ s) rest

/-- The normal form of a list of components. -/
def normalize (cs : List (Component α)) : List (Component α) := normalizeAfter [] [] cs

theorem retainThen_isArranged (n : Nat) :
    ∀ {rest : List (Component α)}, IsArranged rest → IsArranged (retainThen n rest)
  | [], _ => rfl
  | retain m :: rest, h => by
    have ⟨_, h2, h3⟩ := isArranged_cons.1 h
    refine isArranged_cons.2 ⟨rfl, ?_, h3⟩
    cases rest with
    | nil => rfl
    | cons d rest => cases d <;> simp_all [mayPrecede, mayFollow]
  | insert s :: rest, h => isArranged_cons.2 ⟨rfl, rfl, h⟩
  | delete s :: rest, h => isArranged_cons.2 ⟨rfl, rfl, h⟩

theorem runThen_isArranged {ins del : List α} {rest : List (Component α)} (hr : RetainFirst rest)
    (hn : IsArranged rest) : IsArranged (runThen ins del rest) := by
  unfold runThen
  split
  · exact afterDelete_isArranged hr hn
  next hi =>
    split
    · exact retainThen_isArranged _ hn
    next hd =>
      refine isArranged_cons.2 ⟨by simpa [isBlank] using hi, ?_, afterDelete_isArranged hr hn⟩
      unfold afterDelete
      split
      · exact mayPrecede_of_retainFirst rfl hr
      · simp_all [mayPrecede, mayFollow]

theorem normalizeAfter_isArranged (cs : List (Component α)) :
    ∀ ins del : List α, IsArranged (normalizeAfter ins del cs) := by
  induction cs with
  | nil => exact fun _ _ => runThen_isArranged trivial rfl
  | cons c rest ih =>
    intro ins del
    cases c with
    | retain n =>
      simp only [normalizeAfter]
      split
      · exact ih ins del
      · exact runThen_isArranged (retainFirst_retainThen ..) (retainThen_isArranged _ (ih [] []))
    | insert s => exact ih (ins ++ s) del
    | delete s => exact ih ins (del ++ s)

theorem normalize_isArranged (cs : List (Component α)) : IsArranged (normalize cs) :=
  normalizeAfter_isArranged cs [] []

end normalize

/-! ## At the end of a list -/

variable {c : Component α} {settled : List (Component α)} {ins del : List α} {n : Nat}

/-- Settles a run that inserts `ins` and deletes `del`. The settled components stand the latest first. -/
def settleRun [L : Lengths] (ins del : List α) (settled : List (Component α)) : List (Component α) :=
  if !ins.isEmpty && ins == del then retainThen ins.length settled
  else afterDelete del (afterInsert ins settled)

theorem isArranged_reverse_cons : IsArranged (c :: settled).reverse ↔
    IsArranged settled.reverse ∧ c.isBlank = false ∧ ∀ d ∈ settled.head?, mayFollow d c = true := by
  rw [List.reverse_cons, isArranged_concat, List.getLast?_reverse]

theorem isArranged_reverse_retainThen [L : Lengths] (n : Nat) (h : IsArranged settled.reverse) :
    IsArranged (retainThen n settled).reverse := by
  cases settled with
  | nil => exact isArranged_reverse_cons.2 ⟨h, rfl, by simp⟩
  | cons c settled =>
    cases c with
    | retain m =>
      obtain ⟨hs, -, hf⟩ := isArranged_reverse_cons.1 h
      refine isArranged_reverse_cons.2 ⟨hs, rfl, fun d hd => ?_⟩
      have hd := hf d hd
      cases d with
      | retain k => exact hd
      | _ => rfl
    | insert s => exact isArranged_reverse_cons.2 ⟨h, rfl, by simp [mayFollow]⟩
    | delete s => exact isArranged_reverse_cons.2 ⟨h, rfl, by simp [mayFollow]⟩

/-- Behind a retain an insert or a delete may be settled. -/
theorem isArranged_reverse_cons_of_retainFirst (hr : RetainFirst settled) (h : IsArranged settled.reverse)
    (hc : c.isRetain = false) (he : c.isBlank = false) : IsArranged (c :: settled).reverse := by
  refine isArranged_reverse_cons.2 ⟨h, he, ?_⟩
  cases settled with
  | nil => simp
  | cons d settled =>
    rintro _ ⟨⟩
    cases d with
    | retain n =>
      cases c with
      | retain m => cases hc
      | _ => rfl
    | insert s => cases hr
    | delete s => cases hr

theorem isArranged_reverse_settleRun [L : Lengths] (hr : RetainFirst settled) (h : IsArranged settled.reverse) :
    IsArranged (settleRun ins del settled).reverse := by
  unfold settleRun
  split
  next => exact isArranged_reverse_retainThen _ h
  next hi =>
    unfold afterInsert
    split
    next =>
      unfold afterDelete
      split
      next => exact h
      next hd => exact isArranged_reverse_cons_of_retainFirst hr h rfl (by simpa [isBlank] using hd)
    next hins =>
      have hi : (ins == del) = false := by simpa [hins] using hi
      have h := isArranged_reverse_cons_of_retainFirst (c := .insert ins) hr h rfl (by simpa [isBlank] using hins)
      unfold afterDelete
      split
      next => exact h
      next hd => exact isArranged_reverse_cons.2 ⟨h, by simpa [isBlank] using hd, by simpa [mayFollow] using hi⟩

end Coedit.Component
