/-!
# Arithmetic

Lengths and revisions are natural numbers.  A machine adds them up in words of 64 bits, where a sum that does
not fit wraps around.  What adds them up is told in which arithmetic to do so, by an instance of `Lengths` or
of `Revisions`; unless one is given, it adds exactly.  The programs run in words.  What is true of exact sums
is true of words as long as the sums fit: `Arithmetic.wrap_of_fits`.
-/

namespace Coedit

/-- Half of what a word counts. -/
abbrev halfWord : Nat := UInt64.size / 2

/-- How natural numbers are added up. -/
inductive Arithmetic where
  | exact
  /-- In words of 64 bits. -/
  | word

namespace Arithmetic

/-- What is left of a sum. -/
def wrap : Arithmetic → Nat → Nat
  | exact, n => n
  | word, n => n % UInt64.size

/-- A difference. Below zero a word wraps around. -/
def sub : Arithmetic → Nat → Nat → Nat
  | exact, n, m => n - m
  | word, n, m => (n + (UInt64.size - m % UInt64.size)) % UInt64.size

/-- Nothing of the number is lost. -/
def Fits : Arithmetic → Nat → Prop
  | exact, _ => True
  | word, n => n < UInt64.size

instance (a : Arithmetic) (n : Nat) : Decidable (a.Fits n) :=
  match a with
  | exact => isTrue trivial
  | word => inferInstanceAs (Decidable (n < UInt64.size))

variable {a : Arithmetic} {n m : Nat}

@[simp] theorem wrap_exact (n : Nat) : exact.wrap n = n := rfl

theorem wrap_word (n : Nat) : word.wrap n = n % UInt64.size := rfl

@[simp] theorem sub_exact (n m : Nat) : exact.sub n m = n - m := rfl

@[simp] theorem fits_exact (n : Nat) : exact.Fits n := trivial

theorem Fits.of_le (h : a.Fits m) (hle : n ≤ m) : a.Fits n := by
  cases a with
  | exact => trivial
  | word => exact Nat.lt_of_le_of_lt hle h

/-- **A sum that fits is exact.** -/
theorem wrap_of_fits (h : a.Fits n) : a.wrap n = n := by
  cases a with
  | exact => rfl
  | word => exact Nat.mod_eq_of_lt h

/-- It does not matter when a sum wraps around. -/
theorem wrap_wrap_add (a : Arithmetic) (n m : Nat) : a.wrap (a.wrap n + m) = a.wrap (n + m) := by
  cases a with
  | exact => rfl
  | word => exact Nat.mod_add_mod ..

theorem sub_of_fits (h : a.Fits n) (hle : m ≤ n) : a.sub n m = n - m := by
  cases a with
  | exact => rfl
  | word =>
    have h : n < UInt64.size := h
    have hm : m % UInt64.size = m := Nat.mod_eq_of_lt (Nat.lt_of_le_of_lt hle h)
    rw [sub, hm]
    simp only [UInt64.size] at h ⊢
    omega

end Arithmetic

/-- How the lengths of segments are added up. -/
class Lengths where
  arithmetic : Arithmetic

/-- How revisions are counted on. -/
class Revisions where
  arithmetic : Arithmetic

namespace Lengths

instance (priority := low) exact : Lengths := ⟨.exact⟩

/-- Lengths as the programs add them up. -/
abbrev word : Lengths := ⟨.word⟩

@[simp] theorem arithmetic_exact : exact.arithmetic = .exact := rfl

@[simp] theorem arithmetic_word : word.arithmetic = .word := rfl

end Lengths

namespace Revisions

instance (priority := low) exact : Revisions := ⟨.exact⟩

/-- Revisions as the programs count them. -/
abbrev word : Revisions := ⟨.word⟩

@[simp] theorem arithmetic_exact : exact.arithmetic = .exact := rfl

@[simp] theorem arithmetic_word : word.arithmetic = .word := rfl

end Revisions
end Coedit
