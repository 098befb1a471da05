import Mathlib.Data.BitVec
import Mathlib.Tactic.Common
import Mathlib.Tactic.LinearCombination
import Mathlib.Tactic.Ring

namespace Sharing

section beaver

variable {R : Type} [CommRing R]

theorem beaver_add {x0 x1 y0 y1 a0 a1 b0 b1 c0 c1 d e : R}
    (hc : c0 + c1 = (a0 + a1) * (b0 + b1)) (hd : d = (x0 + a0) + (x1 + a1))
    (he : e = (y0 + b0) + (y1 + b1)) :
    (-(d * b0) - e * a0 + c0) + (d * e - d * b1 - e * a1 + c1) = (x0 + x1) * (y0 + y1) := by
  subst hd he
  linear_combination hc

end beaver

section bits

variable {w : ℕ}

theorem beaver_xor {x0 x1 y0 y1 a0 a1 b0 b1 c0 c1 d e : BitVec w}
    (hc : c0 ^^^ c1 = (a0 ^^^ a1) &&& (b0 ^^^ b1)) (hd : d = (x0 ^^^ a0) ^^^ (x1 ^^^ a1))
    (he : e = (y0 ^^^ b0) ^^^ (y1 ^^^ b1)) :
    (d &&& b0 ^^^ e &&& a0 ^^^ c0) ^^^ (d &&& e ^^^ d &&& b1 ^^^ e &&& a1 ^^^ c1) =
      (x0 ^^^ x1) &&& (y0 ^^^ y1) := by
  have hbool : ∀ x0 x1 y0 y1 a0 a1 b0 b1 c0 c1 : Bool,
      (c0 ^^ c1) = ((a0 ^^ a1) && (b0 ^^ b1)) →
      ((((x0 ^^ a0) ^^ (x1 ^^ a1)) && b0 ^^ ((y0 ^^ b0) ^^ (y1 ^^ b1)) && a0 ^^ c0) ^^
        (((x0 ^^ a0) ^^ (x1 ^^ a1)) && ((y0 ^^ b0) ^^ (y1 ^^ b1)) ^^
          ((x0 ^^ a0) ^^ (x1 ^^ a1)) && b1 ^^ ((y0 ^^ b0) ^^ (y1 ^^ b1)) && a1 ^^ c1)) =
        ((x0 ^^ x1) && (y0 ^^ y1)) := by
    decide
  subst hd he
  apply BitVec.eq_of_getLsbD_eq
  intro i hi
  have hci := congrArg (fun z : BitVec w => z.getLsbD i) hc
  simp only [BitVec.getLsbD_xor, BitVec.getLsbD_and] at hci ⊢
  exact hbool _ _ _ _ _ _ _ _ _ _ hci

def LowOnes (m : ℕ) (x : BitVec w) : Prop := ∀ j < m, x.getLsbD j = true

theorem lowOnes_full {x : BitVec w} : LowOnes w x ↔ x = BitVec.allOnes w := by
  constructor
  · intro h
    apply BitVec.eq_of_getLsbD_eq
    intro i hi
    simp [h i hi, hi]
  · rintro rfl j hj
    simp [hj]

theorem lowOnes_fold (m : ℕ) (x : BitVec w) :
    LowOnes m ((x >>> m) &&& x) ↔ LowOnes (2 * m) x := by
  simp only [LowOnes, BitVec.getLsbD_and, BitVec.getLsbD_ushiftRight, Bool.and_eq_true]
  constructor
  · intro h j hj
    by_cases hlt : j < m
    · exact (h j hlt).2
    · have := (h (j - m) (by omega)).1
      rwa [Nat.add_sub_cancel' (by omega)] at this
  · intro h j hj
    exact ⟨h (m + j) (by omega), h j (by omega)⟩

theorem xor_eq_allOnes {x y : BitVec w} : x ^^^ y = BitVec.allOnes w ↔ x = ~~~y := by
  constructor
  · intro h
    rw [← BitVec.xor_allOnes, ← h]
    apply BitVec.eq_of_getLsbD_eq
    intro i hi
    simp only [BitVec.getLsbD_xor]
    cases x.getLsbD i <;> cases y.getLsbD i <;> rfl
  · rintro rfl
    apply BitVec.eq_of_getLsbD_eq
    intro i hi
    simp [hi]

theorem not_xor_neg_eq_allOnes {x y : BitVec w} :
    ~~~x ^^^ -y = BitVec.allOnes w ↔ x + y = 0 := by
  rw [xor_eq_allOnes]
  constructor
  · intro h
    have hx : x = -y := by rw [← BitVec.not_not (b := x), h, BitVec.not_not]
    rw [hx]
    ring
  · intro h
    rw [eq_neg_of_add_eq_zero_left h]

end bits

end Sharing
