import Mathlib.Algebra.Group.End
import Mathlib.Algebra.BigOperators.Group.List.Basic
import Mathlib.Logic.Equiv.Basic
import Mathlib.Tactic.Common

namespace FisherYates

def swaps (k : ℕ → ℕ) (l : List ℕ) : Equiv.Perm ℕ :=
  (l.map fun i => Equiv.swap i (i + k i)).prod

variable {k k' : ℕ → ℕ} {i m : ℕ}

theorem swaps_cons (k : ℕ → ℕ) (i : ℕ) (l : List ℕ) :
    swaps k (i :: l) = Equiv.swap i (i + k i) * swaps k l :=
  List.prod_cons

theorem swaps_below {j : ℕ} (hj : j < i) : swaps k (List.range' i m) j = j := by
  induction m generalizing i with
  | zero => rfl
  | succ m ih =>
    rw [List.range'_succ, swaps_cons, Equiv.Perm.mul_apply, ih (Nat.lt_succ_of_lt hj)]
    exact Equiv.swap_apply_of_ne_of_ne (by omega) (by omega)

theorem swaps_first : swaps k (List.range' i (m + 1)) i = i + k i := by
  rw [List.range'_succ, swaps_cons, Equiv.Perm.mul_apply, swaps_below (Nat.lt_succ_self i),
    Equiv.swap_apply_left]

theorem swaps_injective (h : swaps k (List.range' i m) = swaps k' (List.range' i m)) :
    ∀ j ∈ List.range' i m, k j = k' j := by
  induction m generalizing i with
  | zero => simp
  | succ m ih =>
    have hi : k i = k' i := by
      have hfirst := congrArg (fun σ => σ i) h
      simp only [swaps_first] at hfirst
      exact Nat.add_left_cancel hfirst
    rw [List.range'_succ] at h ⊢
    rw [swaps_cons, swaps_cons, hi] at h
    exact List.forall_mem_cons.mpr ⟨hi, ih (mul_left_cancel h)⟩

theorem swaps_congr {l : List ℕ} (h : ∀ j ∈ l, k j = k' j) : swaps k l = swaps k' l := by
  rw [swaps, swaps]
  refine congrArg List.prod (List.map_congr_left fun j hj => ?_)
  rw [h j hj]

theorem swaps_surjective {σ : Equiv.Perm ℕ} (hlow : ∀ j < i, σ j = j)
    (hhigh : ∀ j, i + m ≤ j → σ j = j) :
    ∃ k : ℕ → ℕ, (∀ j ∈ List.range' i m, k j < i + m - j) ∧ swaps k (List.range' i m) = σ := by
  induction m generalizing i σ with
  | zero =>
    refine ⟨fun _ => 0, by simp, ?_⟩
    ext j
    rcases Nat.lt_or_ge j i with hj | hj
    · exact (hlow j hj).symm
    · exact (hhigh j hj).symm
  | succ m ih =>
    have hge : i ≤ σ i := by
      by_contra hlt
      have h1 := hlow (σ i) (by omega)
      have h2 := σ.injective h1
      omega
    have hlt : σ i < i + (m + 1) := by
      by_contra hle
      have h1 := hhigh (σ i) (by omega)
      have h2 := σ.injective h1
      omega
    have hlow' : ∀ j < i + 1, (Equiv.swap i (σ i) * σ) j = j := by
      intro j hj
      rcases Nat.lt_succ_iff_lt_or_eq.mp hj with hj | rfl
      · rw [Equiv.Perm.mul_apply, hlow j hj]
        exact Equiv.swap_apply_of_ne_of_ne (by omega) (by omega)
      · rw [Equiv.Perm.mul_apply, Equiv.swap_apply_right]
    have hhigh' : ∀ j, i + 1 + m ≤ j → (Equiv.swap i (σ i) * σ) j = j := by
      intro j hj
      rw [Equiv.Perm.mul_apply, hhigh j (by omega)]
      exact Equiv.swap_apply_of_ne_of_ne (by omega) (by omega)
    obtain ⟨k, hk, he⟩ := ih hlow' hhigh'
    refine ⟨Function.update k i (σ i - i), fun j hj => ?_, ?_⟩
    · rw [List.mem_range'_1] at hj
      rcases eq_or_ne j i with rfl | hne
      · rw [Function.update_self]
        omega
      · have := hk j (List.mem_range'_1.mpr (by omega))
        rw [Function.update_of_ne hne]
        omega
    · have hrest : swaps (Function.update k i (σ i - i)) (List.range' (i + 1) m) =
          swaps k (List.range' (i + 1) m) := swaps_congr fun j hj => by
        rw [List.mem_range'_1] at hj
        exact Function.update_of_ne (by omega) _ _
      rw [List.range'_succ, swaps_cons, hrest, he, Function.update_self, Nat.add_sub_cancel' hge,
        ← mul_assoc, Equiv.swap_mul_self, one_mul]

end FisherYates
