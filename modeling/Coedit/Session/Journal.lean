import Coedit.Session.Basic

/-!
# A document with a journal

A target that keeps, next to its document, a journal of all that its session told it.
-/

namespace Coedit

/-- One thing that a session told its target. -/
inductive Notice where
  /-- An operation to apply, and whether it applied. -/
  | consumed (op : Composite) (applied : Bool)
  /-- Whether a batch is in flight, and whether anything is unacknowledged. -/
  | saveState (saving pending : Bool)
  /-- A fault, and whether it is fatal. -/
  | fault (fault : Fault) (fatal : Bool)

/-- A document and what its session told it, the oldest first. -/
structure Journal where
  document : Document
  notices : List Notice

namespace Journal

def empty : Journal := ⟨.empty, []⟩

def note (j : Journal) (x : Notice) : Journal := { j with notices := j.notices ++ [x] }

instance [L : Lengths] : Target Journal where
  consume j op :=
    let (result, document) := Target.consume j.document op
    (result, { j with document }.note (.consumed op result.isOk))
  initialization j := Target.initialization j.document
  saveStateChanged j saving pending := j.note (.saveState saving pending)
  faultRaised j fault fatal := j.note (.fault fault fatal)

def saveStates (j : Journal) : List (Bool × Bool) :=
  j.notices.filterMap fun
    | .saveState saving pending => some (saving, pending)
    | _ => none

def faults (j : Journal) : List (Fault × Bool) :=
  j.notices.filterMap fun
    | .fault fault fatal => some (fault, fatal)
    | _ => none

end Journal
end Coedit
