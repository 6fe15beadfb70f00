import Coedit.Json.Basic

/-!
# JSON number literals

A literal without a point or an exponent is an integer if it fits 64 bits, signed for a negative one and
unsigned otherwise.  Every other literal, `-0` included, is a binary64 number.  Its digits are gathered
into a 64-bit significand as long as they fit; the decimal exponent makes up for digits of the integer
part that no longer fit, and the number is the significand times or divided by a power of ten, rounded
at each of these steps.
-/

namespace Coedit.Json

/-- One past the largest unsigned 64-bit integer. -/
abbrev wordLimit : Nat := UInt64.size

def digit? (c : Char) : Option Nat :=
  if c.isDigit then some (c.toNat - '0'.toNat) else none

/-- The longest run of digits at the front, and what follows. -/
def spanDigits : List Char → List Nat × List Char
  | [] => ([], [])
  | c :: cs =>
    match digit? c with
    | some d => let (ds, rest) := spanDigits cs; (d :: ds, rest)
    | none => ([], c :: cs)

theorem length_spanDigits : ∀ cs : List Char, (spanDigits cs).2.length ≤ cs.length
  | [] => Nat.le_refl _
  | c :: cs => by
    unfold spanDigits
    split
    · exact Nat.le_succ_of_le (length_spanDigits cs)
    · exact Nat.le_refl _

structure Literal where
  negative : Bool
  whole : List Nat
  /-- The digits after the point, if there is a point. -/
  fraction : Option (List Nat)
  exponent : Option Int

/-- A significand and the number of digits that no longer fitted into it. -/
def gather (significand : Nat) : List Nat → Nat × Nat
  | [] => (significand, 0)
  | d :: ds =>
    if significand * 10 + d < wordLimit then gather (significand * 10 + d) ds
    else (significand, ds.length + 1)

/-- The power of ten nearest to `10 ^ e`, for an exponent of at most 308. -/
def powerOfTen? (e : Nat) : Option Binary64 := Binary64.ofQuotient? (Nat.pow 10 e) 1

/-- Scales by a power of ten. A negative exponent beyond 308 is taken off in steps of 308, a positive one
is out of range unless the number is zero. -/
def scale? (x : Binary64) (e : Int) : Option Binary64 :=
  if x.isZero then some x
  else if 308 < e then none
  else if 0 ≤ e then (powerOfTen? e.toNat).bind x.mul?
  else if -308 ≤ e then (powerOfTen? (-e).toNat).bind x.div?
  else ((powerOfTen? 308).bind x.div?).bind fun y => scale? y (e + 308)
termination_by (-e).toNat

namespace Literal

/-- The binary64 number of a literal, unless it is out of range. -/
def float? (l : Literal) : Option Binary64 :=
  let (significand, dropped) := gather 0 l.whole
  let (significand, fraction) :=
    match l.fraction with
    | none => (significand, 0)
    | some ds => let (s, lost) := gather significand ds; (s, ds.length - lost)
  let e : Int := dropped - fraction + l.exponent.getD 0
  ((Binary64.ofQuotient? significand 1).bind fun x => scale? x e).map (·.withSign l.negative)

/-- The number that a literal denotes; one that is out of range is unusable. -/
def json (l : Literal) : Json :=
  let (n, dropped) := gather 0 l.whole
  let integer : Option Int :=
    if l.fraction.isSome || l.exponent.isSome || dropped != 0 then none
    else if l.negative then if 0 < n ∧ n ≤ UInt64.size / 2 then some (-n) else none
    else some n
  match integer with
  | some n => .int n
  | none =>
    match l.float? with
    | some x => .float x
    | none => .unusable

end Literal

/-- Reads `[+-]digits` after an exponent mark. -/
def exponent? (cs : List Char) : Option (Int × List Char) :=
  let (sign, cs) : Int × List Char :=
    match cs with
    | '+' :: cs => (1, cs)
    | '-' :: cs => (-1, cs)
    | cs => (1, cs)
  match spanDigits cs with
  | ([], _) => none
  | (ds, rest) => some (sign * (ds.foldl (fun n d => n * 10 + d) 0 : Nat), rest)

/-- Reads a number literal at the front of `cs`. The integer part has no superfluous zero, and a point or
an exponent mark is followed by at least one digit. -/
def literal? (cs : List Char) : Option (Literal × List Char) := do
  let (negative, cs) :=
    match cs with
    | '-' :: cs => (true, cs)
    | cs => (false, cs)
  let (whole, cs) := spanDigits cs
  if whole.isEmpty || (whole.head? == some 0 && whole.length != 1) then none
  else
    let (fraction, cs) ←
      match cs with
      | '.' :: cs =>
        match spanDigits cs with
        | ([], _) => none
        | (ds, rest) => some (some ds, rest)
      | cs => some (none, cs)
    let (exponent, cs) ←
      match cs with
      | 'e' :: cs => (exponent? cs).map fun (e, rest) => (some e, rest)
      | 'E' :: cs => (exponent? cs).map fun (e, rest) => (some e, rest)
      | cs => some (none, cs)
    return (⟨negative, whole, fraction, exponent⟩, cs)

end Coedit.Json
