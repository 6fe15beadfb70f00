import Coedit.Config
import Coedit.Fault
import Coedit.Json.Reader
import Coedit.Wire.Reading

/-!
# Written form of configurations

A configuration is a record in which everything may be left out.  A channel takes it from a file: one
that is missing or does not hold a configuration counts as one with the defaults, and one that is not
UTF-8 text is a fault.
-/

namespace Coedit

namespace RetryPolicy

def toJson (p : RetryPolicy) : Json :=
  .obj [("initial_delay_ms", .int p.initialDelay), ("max_delay_ms", .int p.maxDelay),
    ("multiplier", .int p.multiplier)]

/-- Reads a policy; what is left out has its default. -/
def ofJson? (j : Json) : Option RetryPolicy := do
  let d : RetryPolicy := {}
  match ← j.record? ["initial_delay_ms", "max_delay_ms", "multiplier"] with
  | [initial, max, multiplier] =>
    return ⟨← Json.withDefault? Json.word? d.initialDelay initial,
      ← Json.withDefault? Json.word? d.maxDelay max,
      ← Json.withDefault? (Json.natBelow? UInt32.size) d.multiplier multiplier⟩
  | _ => none

end RetryPolicy

namespace Config

def toJson (c : Config) : Json := .obj [("send_delay_ms", .int c.sendDelay), ("retry", c.retry.toJson)]

/-- Reads a configuration; what is left out has its default. -/
def ofJson? (j : Json) : Option Config := do
  let d : Config := {}
  match ← j.record? ["send_delay_ms", "retry"] with
  | [send, retry] =>
    return ⟨← Json.withDefault? Json.word? d.sendDelay send,
      ← Json.withDefault? RetryPolicy.ofJson? d.retry retry⟩
  | _ => none

def ofText (text : String) : Config := ((Json.parse? text).bind ofJson?).getD {}

/-- The configuration from the bytes of a file, or from no file. -/
def load : Option ByteArray → Except Fault Config
  | none => .ok {}
  | some bytes =>
    match String.fromUTF8? bytes with
    | some text => .ok (ofText text)
    | none => .error (.io "stream did not contain valid UTF-8")

end Config
end Coedit
