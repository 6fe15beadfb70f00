import Coedit.Operation
import Coedit.Sequence.Compose
import Coedit.Sequence.Normal
import Coedit.Sequence.Segment
import Coedit.Sequence.Transform

/-!
# Edits of texts and lists

An `Edit` is a component list in normal form, so equal edits are equal lists; of lengths that were added up
in words only the arrangement is sure.  An edit covers its target exactly: what it retains and deletes adds up
to the length of the target.  The edit without components is the identity and applies to any value.  A `Draft`
builds an edit from components pushed one at a time.
-/

namespace Coedit

/-- A transformation of one sequence into another. -/
@[ext] structure Edit (α : Type) [Element α] where
  components : List (Component α)
  isArranged : Component.IsArranged components

abbrev TextEdit := Edit Char

abbrev ListEdit := Edit Value

namespace Edit

variable {α : Type} [Element α] [L : Lengths]

/-- The edit that applies to any value and changes nothing. -/
def identity : Edit α := ⟨[], rfl⟩

instance : Inhabited (Edit α) := ⟨identity⟩

/-- The edit that a list of components describes. -/
def ofComponents (cs : List (Component α)) : Edit α :=
  ⟨Component.normalize cs, Component.normalize_isArranged cs⟩

/-- Inserts a segment at `index` into a value of length `size`. -/
def insertAt (size index : Nat) (segment : List α) : Edit α :=
  ofComponents [.retain index, .insert segment, .retain (size - index)]

/-- Deletes the segment found at `index` in a value of length `size`. -/
def deleteAt (size index : Nat) (segment : List α) : Edit α :=
  ofComponents [.retain index, .delete segment, .retain (size - L.arithmetic.wrap (index + segment.length))]

def isIdentity (e : Edit α) : Bool := e.components.isEmpty

def IsNormal (e : Edit α) : Prop := Component.IsNormal e.components

instance (e : Edit α) : Decidable e.IsNormal := inferInstanceAs (Decidable (Component.isNormal e.components = true))

/-- The length of the values that the edit applies to. -/
def preLength (e : Edit α) : Nat := L.arithmetic.wrap (Component.totalPre e.components)

def postLength (e : Edit α) : Nat := L.arithmetic.wrap (Component.totalPost e.components)

/-! ## Applying -/

/-- The lengths of the runs that a component list cuts its target into. -/
def runLengths (cs : List (Component α)) : List Nat :=
  cs.filterMap fun
    | .retain n => some n
    | .delete s => some s.length
    | .insert _ => none

/-- Puts the result together from the runs of the target, the next of which starts at `position`. -/
def assemble (position : Nat) : List (Component α) → List (List α) → Except ApplyFault (List α)
  | [], _ => .ok []
  | .retain n :: cs, runs => (assemble (L.arithmetic.wrap (position + n)) cs runs.tail).map (runs.headD [] ++ ·)
  | .insert s :: cs, runs => (assemble position cs runs).map (s ++ ·)
  | .delete s :: cs, runs =>
    if runs.headD [] == s then assemble (L.arithmetic.wrap (position + s.length)) cs runs.tail
    else .error (.content (Element.fragment s) position (Element.fragment (runs.headD [])))

/-- The value after the edit. It fails if the edit does not cover `target` exactly, or if a delete names
content that is not there. -/
def apply (e : Edit α) (target : List α) : Except ApplyFault (List α) :=
  if e.isIdentity then .ok target
  else
    let lengths := runLengths e.components
    let covered := L.arithmetic.wrap (Segment.total lengths)
    if covered != target.length then .error (.coverage covered target.length)
    else assemble 0 e.components (Segment.runs target lengths)

/-! ## The algebra -/

/-- One edit with the effect of `first` and then `second`. -/
def compose (first second : Edit α) : Except ComposeFault (Edit α) :=
  if first.isIdentity then .ok second
  else if second.isIdentity then .ok first
  else (Component.composeWalk first.components second.components).map ofComponents

/-- Two edits of one value, each as it applies after the other. At one position the server's insert goes
first. -/
def transform (server client : Edit α) : Except TransformFault (Edit α × Edit α) :=
  if server.isIdentity || client.isIdentity then .ok (server, client)
  else if server.preLength != client.preLength then .error (.lengths server.preLength client.preLength)
  else
    (Component.transformWalk server.components client.components).map fun p =>
      (ofComponents p.1, ofComponents p.2)

/-- The edit that undoes `e`. -/
def invert (e : Edit α) : Edit α := ofComponents (e.components.map Component.invert)

/-- Whether `e` keeps all it covers. -/
def isNoop (e : Edit α) : Bool := e.components.all Component.isRetain

instance : Operation (Edit α) (List α) where
  apply := apply
  compose := compose
  transform := transform
  invert := invert
  isNoop := isNoop

end Edit

/-! ## Building edits step by step -/

open Component

/-- Components pushed so far, brought to normal form on the way. Behind what is settled stands an open run, which
gathers inserts and deletes in whatever order until a retain settles it, or the end. -/
structure Draft (α : Type) [Element α] where
  /-- What is settled, the latest first. -/
  settled : List (Component α)
  /-- What the open run inserts. -/
  ins : List α
  /-- What the open run deletes. -/
  del : List α
  isArranged : IsArranged settled.reverse
  /-- A run is settled only when a retain follows it. -/
  retainFirst : RetainFirst settled

namespace Draft

variable {α : Type} [Element α]

def empty : Draft α := ⟨[], [], [], rfl, trivial⟩

/-- Keeps elements, which settles the run. -/
def retain [L : Lengths] (d : Draft α) (n : Nat) : Draft α :=
  if n = 0 then d
  else
    { settled := retainThen n (settleRun d.ins d.del d.settled)
      ins := []
      del := []
      isArranged := isArranged_reverse_retainThen n (isArranged_reverse_settleRun d.retainFirst d.isArranged)
      retainFirst := retainFirst_retainThen .. }

def insert (d : Draft α) (s : List α) : Draft α := { d with ins := d.ins ++ s }

def delete (d : Draft α) (s : List α) : Draft α := { d with del := d.del ++ s }

def push [L : Lengths] (d : Draft α) : Component α → Draft α
  | .retain n => d.retain n
  | .insert s => d.insert s
  | .delete s => d.delete s

/-- The edit pushed so far, and an empty draft for the next one. -/
def build [L : Lengths] (d : Draft α) : Edit α × Draft α :=
  (⟨(settleRun d.ins d.del d.settled).reverse, isArranged_reverse_settleRun d.retainFirst d.isArranged⟩, empty)

end Draft
end Coedit
