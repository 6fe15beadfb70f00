/-!
# Finite binary64 numbers

A finite 64-bit binary floating-point number is a sign and a magnitude.  The magnitude counts the
representable numbers from zero up, which is also the order of their bit patterns, so arithmetic and
comparison stay in `Nat`.  Rounding a quotient of naturals to the nearest number is the one primitive;
products and quotients of numbers are exact quotients, rounded once.
-/

namespace Coedit

/-- A finite binary64 number.  Zero keeps its sign. -/
structure Binary64 where
  negative : Bool
  /-- The position among the non-negative numbers, from zero up. -/
  magnitude : Nat
  finite : magnitude < 2047 * Nat.pow 2 52
  deriving DecidableEq

namespace Binary64

def zero : Binary64 := ⟨false, 0, by decide⟩

def withSign (x : Binary64) (negative : Bool) : Binary64 := { x with negative }

def isZero (x : Binary64) : Bool := x.magnitude == 0

/-- Numeric equality: the two zeros are equal, any other number equals only itself. -/
def same (x y : Binary64) : Bool :=
  x.magnitude == y.magnitude && (x.negative == y.negative || x.isZero)

theorem same_iff {x y : Binary64} :
    x.same y = true ↔ x = y ∨ (x.magnitude = 0 ∧ y.magnitude = 0) := by
  cases x; cases y; simp [same, isZero]; grind

/-- The integer `m` with `|x| = m * 2 ^ (x.exponent - 1074)`. -/
def significand (x : Binary64) : Nat :=
  if x.magnitude < Nat.pow 2 52 then x.magnitude else Nat.pow 2 52 + x.magnitude % Nat.pow 2 52

/-- How many powers of two the unit of `significand` lies above the least one, `2 ^ -1074`. -/
def exponent (x : Binary64) : Nat := x.magnitude / Nat.pow 2 52 - 1

/-- `num / den` rounded to the nearest integer, halves to the even one. -/
def roundDiv (num den : Nat) : Nat :=
  let q := num / den
  let twice := 2 * (num % den)
  if twice < den then q else if den < twice then q + 1 else q + q % 2

/-- The magnitude nearest to `num / den * 2 ^ -1074`, halves to the even one.

The unit is raised until the rounded significand has at most 53 bits; a significand that reaches
`2 ^ 53` by rounding up carries into the exponent. -/
def roundMagnitude (num den : Nat) : Nat :=
  let e := (num / den).log2 - 52
  e * Nat.pow 2 52 + roundDiv num (den * Nat.pow 2 e)

/-- The non-negative number nearest to `num / den`, unless that is beyond the largest finite one. -/
def ofQuotient? (num den : Nat) : Option Binary64 :=
  let magnitude := roundMagnitude (num * Nat.pow 2 1074) den
  if finite : magnitude < 2047 * Nat.pow 2 52 then some ⟨false, magnitude, finite⟩ else none

/-- The product, rounded to nearest, unless it is out of range. -/
def mul? (x y : Binary64) : Option Binary64 :=
  (ofQuotient? (x.significand * Nat.pow 2 x.exponent * (y.significand * Nat.pow 2 y.exponent)) (Nat.pow 2 2148)).map
    (·.withSign (x.negative != y.negative))

/-- The quotient by a number other than zero, rounded to nearest, unless it is out of range. -/
def div? (x y : Binary64) : Option Binary64 :=
  (ofQuotient? (x.significand * Nat.pow 2 x.exponent) (y.significand * Nat.pow 2 y.exponent)).map
    (·.withSign (x.negative != y.negative))

/-! ## The fewest digits that read back -/

/-- A decimal numeral `digits * 10 ^ power`. -/
structure Numeral where
  digits : Nat
  power : Int
  deriving DecidableEq

/-- The multiples of `10 ^ power` beside `|x|` that round to `|x|`: the nearer of the two, or the even
one where both are equally near.

All lengths are in units of `2 ^ -1076 / 10 ^ max (-power) 0`.  The interval of reals that round to `|x|`
reaches half a unit of `significand` to either side, a quarter below a power of two, and includes its
ends if the significand is even. -/
def onGrid? (x : Binary64) (power : Int) : Option Nat :=
  let unit := Nat.pow 2 x.exponent * Nat.pow 10 (-power).toNat
  let m := x.significand
  let value := 4 * m * unit
  let low := if m = Nat.pow 2 52 ∧ x.exponent ≠ 0 then (4 * m - 1) * unit else (4 * m - 2) * unit
  let high := (4 * m + 2) * unit
  let step := Nat.pow 2 1076 * Nat.pow 10 power.toNat
  let hits (d : Nat) : Bool :=
    d != 0 && (if m % 2 = 0 then low ≤ d * step && d * step ≤ high else low < d * step && d * step < high)
  let d := value / step
  match hits d, hits (d + 1) with
  | false, false => none
  | true, false => some d
  | false, true => some (d + 1)
  | true, true =>
    let below := value - d * step
    let above := (d + 1) * step - value
    some (if below < above then d else if above < below then d + 1 else d + d % 2)

/-- Tries ever finer grids, the next one to try being the multiples of `10 ^ power`. -/
def shortestFrom (x : Binary64) : Nat → Int → Numeral
  | 0, power => ⟨0, power⟩
  | tries + 1, power =>
    match x.onGrid? power with
    | some digits => ⟨digits, power⟩
    | none => shortestFrom x tries (power - 1)

/-- The numeral with the fewest digits among those that round to `|x|`, and the nearest of these.

The first grid is coarser than `|x|` itself; seventeen digits always suffice. -/
def shortest (x : Binary64) : Numeral :=
  if x.isZero then ⟨0, 0⟩
  else
    let log2 : Int := x.significand.log2 + x.exponent - 1074
    x.shortestFrom 24 ((log2 + 1) * 30103 / 100000 + 2)

def digits (n : Nat) : List Char := Nat.toDigits 10 n

/-- Writes a number by its fewest digits, and always so that it reads as a number with a fraction.

Leading digits from the fifth decimal place up to the sixteenth digit before the point are written
positionally and end in `.0` if the value is integral; others are written with a signed power of ten. -/
def text (x : Binary64) : String :=
  let s := x.shortest
  let ds := digits s.digits
  let point : Int := ds.length + s.power
  let body : List Char :=
    if x.isZero then ['0', '.', '0']
    else if 0 ≤ s.power ∧ point ≤ 16 then ds ++ List.replicate s.power.toNat '0' ++ ['.', '0']
    else if 0 < point ∧ point ≤ 16 then ds.take point.toNat ++ '.' :: ds.drop point.toNat
    else if -5 < point ∧ point ≤ 0 then '0' :: '.' :: List.replicate (-point).toNat '0' ++ ds
    else
      let e := point - 1
      let power := (if e < 0 then '-' else '+') :: digits e.natAbs
      match ds with
      | d :: r :: rest => d :: '.' :: r :: rest ++ 'e' :: power
      | ds => ds ++ 'e' :: power
  String.ofList (if x.negative then '-' :: body else body)

end Binary64
end Coedit
