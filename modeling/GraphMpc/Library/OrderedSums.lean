import GraphMpc.Library.StableOrder
import Mathlib.Algebra.BigOperators.Ring.Finset

namespace OrderedSums

open Tabulate

section sums

variable {M : Type} [AddCommMonoid M] {n : ℕ} {ρ : Equiv.Perm ℕ}

theorem sum_positions (hρ : Keeps n ρ) {m : ℕ} (hm : m ≤ n) (f : ℕ → M) :
    ∑ i ∈ Finset.range m, f (ρ.symm i) = ∑ e ∈ (Finset.range n).filter (ρ · < m), f e := by
  refine Finset.sum_nbij' ρ.symm ρ ?_ ?_ ?_ ?_ ?_
  · intro i hi
    have hi := Finset.mem_range.mp hi
    simp [hρ.symm_lt (hi.trans_le hm), hi]
  · intro e he
    exact Finset.mem_range.mpr (Finset.mem_filter.mp he).2
  · simp
  · simp
  · simp

theorem sum_upTo (hρ : Keeps n ρ) {e : ℕ} (he : e < n) (f : ℕ → M) :
    ∑ i ∈ Finset.range (ρ e + 1), f (ρ.symm i) =
      ∑ j ∈ (Finset.range n).filter (ρ · ≤ ρ e), f j := by
  rw [sum_positions hρ (hρ.lt he)]
  refine Finset.sum_congr (Finset.filter_congr fun j _ => ?_) fun _ _ => rfl
  exact Nat.lt_succ_iff

end sums

section differences

variable {M : Type} [AddCommGroup M] {n : ℕ} {ρ : Equiv.Perm ℕ}

theorem sum_differences (x : ℕ → M) (k : ℕ) :
    ∑ p ∈ Finset.range (k + 1), (if 0 < p then x p - x (p - 1) else x p) = x k := by
  induction k with
  | zero => simp
  | succ k ih =>
    rw [Finset.sum_range_succ, ih, if_pos (Nat.succ_pos k), Nat.add_sub_cancel]
    exact add_sub_cancel _ _

theorem sum_between {d e : ℕ} (hde : ρ d ≤ ρ e) (f : ℕ → M) :
    ∑ j ∈ (Finset.range n).filter (ρ · ≤ ρ e), f j -
        ∑ j ∈ (Finset.range n).filter (ρ · ≤ ρ d), f j =
      ∑ j ∈ (Finset.range n).filter (fun j => ρ d < ρ j ∧ ρ j ≤ ρ e), f j := by
  have hsplit : (Finset.range n).filter (ρ · ≤ ρ e) =
      (Finset.range n).filter (fun j => ρ d < ρ j ∧ ρ j ≤ ρ e) ∪
        (Finset.range n).filter (ρ · ≤ ρ d) := by
    ext j
    simp only [Finset.mem_filter, Finset.mem_union, Finset.mem_range]
    omega
  have hdisj : Disjoint ((Finset.range n).filter (fun j => ρ d < ρ j ∧ ρ j ≤ ρ e))
      ((Finset.range n).filter (ρ · ≤ ρ d)) := by
    rw [Finset.disjoint_filter]
    intro j _ h1 h2
    exact absurd h1.1 h2.not_gt
  rw [hsplit, Finset.sum_union hdisj, add_sub_cancel_right]

end differences

theorem binary_eq_sum (keys : List (ℕ → Bool)) (i : ℕ) : StableOrder.binary keys i =
    ∑ j ∈ Finset.range keys.length, (keys.getD j (fun _ => false) i).toNat * 2 ^ j := by
  induction keys with
  | nil => rfl
  | cons b keys ih =>
    rw [StableOrder.binary, ih, List.length_cons, Finset.sum_range_succ', Finset.mul_sum]
    simp only [List.getD_cons_zero, List.getD_cons_succ, pow_zero, mul_one, pow_succ]
    rw [add_comm]
    refine congrArg (· + _) (Finset.sum_congr rfl fun j _ => ?_)
    rw [mul_comm 2, mul_assoc]

end OrderedSums
