import Coedit.Json.Basic

/-!
# JSON equality is an equivalence

Equality of trees and of values is reflexive, symmetric and transitive.  It is coarser than identity only
in that the two zeros are equal.
-/

namespace Coedit

namespace Binary64

theorem same_refl (x : Binary64) : x.same x = true := same_iff.2 (.inl rfl)

theorem same_symm {x y : Binary64} (h : x.same y = true) : y.same x = true :=
  same_iff.2 ((same_iff.1 h).imp Eq.symm And.symm)

theorem same_trans {x y z : Binary64} (h : x.same y = true) (h' : y.same z = true) : x.same z = true := by
  rcases same_iff.1 h with rfl | ⟨hx, hy⟩
  · exact h'
  · rcases same_iff.1 h' with rfl | ⟨_, hz⟩
    · exact h
    · exact same_iff.2 (.inr ⟨hx, hz⟩)

end Binary64

namespace Json

mutual

theorem beq_refl : ∀ a : Json, a.beq a = true
  | .null => rfl
  | .bool _ => by simp [beq]
  | .int _ => by simp [beq]
  | .float x => x.same_refl
  | .str _ => by simp [beq]
  | .arr l => beqItems_refl l
  | .obj l => beqMembers_refl l
  | .unusable => rfl

theorem beqItems_refl : ∀ l : List Json, beqItems l l = true
  | [] => rfl
  | a :: l => by simp [beqItems, beq_refl a, beqItems_refl l]

theorem beqMembers_refl : ∀ l : List (String × Json), beqMembers l l = true
  | [] => rfl
  | (_, a) :: l => by simp [beqMembers, beq_refl a, beqMembers_refl l]

end

mutual

theorem beq_symm : ∀ {a b : Json}, a.beq b = true → b.beq a = true
  | .null, b, h => by cases b <;> simp_all [beq]
  | .bool _, b, h => by cases b <;> simp_all [beq]
  | .int _, b, h => by cases b <;> simp_all [beq]
  | .float _, .float _, h => Binary64.same_symm h
  | .str _, b, h => by cases b <;> simp_all [beq]
  | .arr _, .arr _, h => beqItems_symm h
  | .obj _, .obj _, h => beqMembers_symm h
  | .unusable, b, h => by cases b <;> simp_all [beq]

theorem beqItems_symm : ∀ {l m : List Json}, beqItems l m = true → beqItems m l = true
  | [], [], _ => rfl
  | a :: l, b :: m, h => by
    have ⟨h1, h2⟩ := Bool.and_eq_true_iff.1 h
    simp [beqItems, beq_symm h1, beqItems_symm h2]

theorem beqMembers_symm : ∀ {l m : List (String × Json)}, beqMembers l m = true → beqMembers m l = true
  | [], [], _ => rfl
  | (k, a) :: l, (k', b) :: m, h => by
    simp only [beqMembers, Bool.and_eq_true, beq_iff_eq] at h
    simp [beqMembers, h.1.1, beq_symm h.1.2, beqMembers_symm h.2]

end

mutual

theorem beq_trans : ∀ {a b c : Json}, a.beq b = true → b.beq c = true → a.beq c = true
  | .null, .null, _, _, h => h
  | .bool _, .bool _, c, h, h' => by cases c <;> simp_all [beq]
  | .int _, .int _, c, h, h' => by cases c <;> simp_all [beq]
  | .float _, .float _, .float _, h, h' => Binary64.same_trans h h'
  | .str _, .str _, c, h, h' => by cases c <;> simp_all [beq]
  | .arr _, .arr _, .arr _, h, h' => beqItems_trans h h'
  | .obj _, .obj _, .obj _, h, h' => beqMembers_trans h h'
  | .unusable, .unusable, _, _, h => h

theorem beqItems_trans :
    ∀ {l m n : List Json}, beqItems l m = true → beqItems m n = true → beqItems l n = true
  | [], [], [], _, _ => rfl
  | a :: l, b :: m, c :: n, h, h' => by
    have ⟨h1, h2⟩ := Bool.and_eq_true_iff.1 h
    have ⟨h1', h2'⟩ := Bool.and_eq_true_iff.1 h'
    simp [beqItems, beq_trans h1 h1', beqItems_trans h2 h2']

theorem beqMembers_trans : ∀ {l m n : List (String × Json)},
    beqMembers l m = true → beqMembers m n = true → beqMembers l n = true
  | [], [], [], _, _ => rfl
  | (_, a) :: l, (_, b) :: m, (_, c) :: n, h, h' => by
    simp only [beqMembers, Bool.and_eq_true, beq_iff_eq] at h h'
    simp [beqMembers, h.1.1, h'.1.1, beq_trans h.1.2 h'.1.2, beqMembers_trans h.2 h'.2]

end

instance : EquivBEq Json where
  rfl := beq_refl _
  symm := beq_symm
  trans := beq_trans

end Json

namespace Value

theorem beq_def (v w : Value) : (v == w) = (v.json == w.json) := rfl

instance : EquivBEq Value where
  rfl {v} := BEq.rfl (a := v.json)
  symm {v w} h := BEq.symm (a := v.json) (b := w.json) h
  trans {u v w} h h' := BEq.trans (a := u.json) (b := v.json) (c := w.json) h h'

end Value
end Coedit
