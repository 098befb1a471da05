import Mathlib.Algebra.BigOperators.Group.Finset.Basic
import Mathlib.Algebra.Order.BigOperators.Group.Finset
import Mathlib.Data.Nat.Choose.Sum

namespace Walks

open Finset

variable {V E : Type} [DecidableEq V] [DecidableEq E]

section walks

variable (edges : Finset E) (src dst : E → V)

def IsWalk : V → List E → Prop
  | _, [] => True
  | u, e :: w => e ∈ edges ∧ src e = u ∧ IsWalk (dst e) w

def finish (dst : E → V) : V → List E → V
  | u, [] => u
  | _, e :: w => finish dst (dst e) w

def walks : ℕ → V → Finset (List E)
  | 0, _ => {[]}
  | k + 1, u => (edges.filter (src · = u)).biUnion fun e => (walks k (dst e)).image (e :: ·)

variable {edges src dst}

theorem mem_walks {k : ℕ} {u : V} {w : List E} :
    w ∈ walks edges src dst k u ↔ w.length = k ∧ IsWalk edges src dst u w := by
  induction k generalizing u w with
  | zero => cases w <;> simp [walks, IsWalk]
  | succ k ih =>
    simp only [walks, mem_biUnion, mem_filter, mem_image, ih]
    cases w with
    | nil => simp
    | cons e w =>
      simp only [List.length_cons, Nat.add_right_cancel_iff, IsWalk, List.cons.injEq]
      constructor
      · rintro ⟨f, ⟨hf, hu⟩, w', ⟨hlen, hw⟩, rfl, rfl⟩
        exact ⟨hlen, hf, hu, hw⟩
      · rintro ⟨hlen, he, hu, hw⟩
        exact ⟨e, ⟨he, hu⟩, w, ⟨hlen, hw⟩, rfl, rfl⟩

theorem sum_walks_succ {M : Type} [AddCommMonoid M] (f : List E → M) (k : ℕ) (u : V) :
    ∑ w ∈ walks edges src dst (k + 1) u, f w =
      ∑ e ∈ edges.filter (src · = u), ∑ w ∈ walks edges src dst k (dst e), f (e :: w) := by
  rw [walks, sum_biUnion]
  · refine sum_congr rfl fun e _ => sum_image fun w _ w' _ h => ?_
    exact (List.cons.inj h).2
  · intro e _ e' _ hne
    rw [Function.onFun, Finset.disjoint_left]
    rintro w hw hw'
    obtain ⟨v, -, rfl⟩ := mem_image.mp hw
    obtain ⟨v', -, h⟩ := mem_image.mp hw'
    exact hne (List.cons.inj h).1.symm

theorem card_walks_succ (k : ℕ) (u : V) : (walks edges src dst (k + 1) u).card =
    ∑ e ∈ edges.filter (src · = u), (walks edges src dst k (dst e)).card := by
  simp only [card_eq_sum_ones]
  exact sum_walks_succ (fun _ => 1) k u

omit [DecidableEq V] [DecidableEq E] in
theorem isWalk_append {u : V} {w w' : List E} : IsWalk edges src dst u (w ++ w') ↔
    IsWalk edges src dst u w ∧ IsWalk edges src dst (finish dst u w) w' := by
  induction w generalizing u with
  | nil => simp [IsWalk, finish]
  | cons e w ih => simp only [List.cons_append, IsWalk, finish, ih, and_assoc]

omit [DecidableEq V] [DecidableEq E] in
theorem finish_append (u : V) (w w' : List E) :
    finish dst u (w ++ w') = finish dst (finish dst u w) w' := by
  induction w generalizing u with
  | nil => rfl
  | cons e w ih => exact ih (dst e)

omit [DecidableEq V] [DecidableEq E] in
theorem IsWalk.reverse {u : V} {w : List E} (h : IsWalk edges src dst u w) :
    IsWalk edges dst src (finish dst u w) w.reverse ∧
      finish src (finish dst u w) w.reverse = u := by
  induction w generalizing u with
  | nil => exact ⟨trivial, rfl⟩
  | cons e w ih =>
    obtain ⟨he, rfl, hw⟩ := h
    obtain ⟨h1, h2⟩ := ih hw
    rw [List.reverse_cons, finish, isWalk_append, finish_append, h2]
    exact ⟨⟨h1, he, rfl, trivial⟩, rfl⟩

theorem card_walks_image {F : Type} [DecidableEq F] {f : E → F} {src' dst' : F → V}
    (hf : Set.InjOn f edges) (hsrc : ∀ e ∈ edges, src' (f e) = src e)
    (hdst : ∀ e ∈ edges, dst' (f e) = dst e) (k : ℕ) (u : V) :
    (walks (edges.image f) src' dst' k u).card = (walks edges src dst k u).card := by
  induction k generalizing u with
  | zero => rfl
  | succ k ih =>
    have hfilter : (edges.image f).filter (src' · = u) = (edges.filter (src · = u)).image f := by
      ext p
      simp only [mem_filter, mem_image]
      constructor
      · rintro ⟨⟨e, he, rfl⟩, hu⟩
        exact ⟨e, ⟨he, (hsrc e he) ▸ hu⟩, rfl⟩
      · rintro ⟨e, ⟨he, hu⟩, rfl⟩
        exact ⟨⟨e, he, rfl⟩, (hsrc e he).trans hu⟩
    rw [card_walks_succ, card_walks_succ, hfilter, sum_image]
    · refine sum_congr rfl fun e he => ?_
      rw [hdst e (mem_filter.mp he).1, ih]
    · exact fun e he e' he' h => hf (mem_filter.mp he).1 (mem_filter.mp he').1 h

end walks

section weighted

variable (edges : Finset E) (src dst : E → V) (s : V → ℕ)

def weight (k : ℕ) (u : V) : ℕ := ∑ w ∈ walks edges src dst k u, s (finish dst u w)

variable {edges src dst s}

theorem weight_zero (u : V) : weight edges src dst s 0 u = s u := by
  simp [weight, walks, finish]

theorem weight_succ (k : ℕ) (u : V) : weight edges src dst s (k + 1) u =
    ∑ e ∈ edges.filter (src · = u), weight edges src dst s k (dst e) :=
  sum_walks_succ (fun w => s (finish dst u w)) k u

theorem weight_pos {k : ℕ} {u : V} : 0 < weight edges src dst s k u ↔
    ∃ w, w.length = k ∧ IsWalk edges src dst u w ∧ 0 < s (finish dst u w) := by
  rw [weight, sum_pos_iff]
  simp only [mem_walks, and_assoc]

variable (edges src dst s)

def lazyWeight : ℕ → V → ℕ
  | 0, u => s u
  | k + 1, u => lazyWeight k u + ∑ e ∈ edges.filter (src · = u), lazyWeight k (dst e)

variable {edges src dst s}

theorem lazyWeight_eq (d : ℕ) (u : V) : lazyWeight edges src dst s d u =
    ∑ k ∈ range (d + 1), d.choose k * weight edges src dst s k u := by
  induction d generalizing u with
  | zero => simp [lazyWeight, weight_zero]
  | succ d ih =>
    have hstep : ∑ e ∈ edges.filter (src · = u), lazyWeight edges src dst s d (dst e) =
        ∑ k ∈ range (d + 1), d.choose k * weight edges src dst s (k + 1) u := by
      simp only [ih, weight_succ, mul_sum]
      exact sum_comm
    rw [lazyWeight, ih, hstep, sum_range_succ' _ (d + 1), sum_range_succ' _ d]
    simp only [Nat.choose_succ_succ, Nat.choose_zero_right, one_mul, add_mul, sum_add_distrib]
    rw [sum_range_succ (fun k => d.choose (k + 1) * _) d, Nat.choose_succ_self, zero_mul, add_zero]
    ring

theorem lazyWeight_pos {d : ℕ} {u : V} : 0 < lazyWeight edges src dst s d u ↔
    ∃ w, w.length ≤ d ∧ IsWalk edges src dst u w ∧ 0 < s (finish dst u w) := by
  rw [lazyWeight_eq, sum_pos_iff]
  constructor
  · rintro ⟨k, hk, hpos⟩
    obtain ⟨w, hlen, hw⟩ := weight_pos.mp (Nat.pos_of_mul_pos_left hpos)
    exact ⟨w, hlen ▸ Nat.lt_succ_iff.mp (mem_range.mp hk), hw⟩
  · rintro ⟨w, hlen, hw⟩
    exact ⟨w.length, mem_range.mpr (Nat.lt_succ_iff.mpr hlen),
      Nat.mul_pos (Nat.choose_pos hlen) (weight_pos.mpr ⟨w, rfl, hw⟩)⟩

end weighted

end Walks
