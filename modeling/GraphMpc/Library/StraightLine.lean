import Mathlib.Data.List.Basic
import Mathlib.Logic.Function.Basic
import Mathlib.Tactic.Common

namespace StraightLine

variable {ι V : Type}

structure Language (ι V : Type) where
  out : ι → ℕ
  reads : ι → List ℕ
  fn : ι → (ℕ → V) → V
  congr : ∀ i e e', (∀ r ∈ reads i, e r = e' r) → fn i e = fn i e'

variable (L : Language ι V)

def Language.step (e : ℕ → V) (i : ι) : ℕ → V := Function.update e (L.out i) (L.fn i e)

def Language.exec (e : ℕ → V) (l : List ι) : ℕ → V := l.foldl L.step e

def Language.Solves (e : ℕ → V) (i : ι) : Prop := e (L.out i) = L.fn i e

def Language.Before (i j : ι) : Prop := L.out j ≠ L.out i ∧ L.out j ∉ L.reads i

def Language.Ordered (l : List ι) : Prop :=
  l.Pairwise L.Before ∧ ∀ i ∈ l, L.out i ∉ L.reads i

namespace Language

variable {L}

theorem step_of_ne {e : ℕ → V} {i : ι} {w : ℕ} (h : w ≠ L.out i) : L.step e i w = e w :=
  Function.update_of_ne h _ _

theorem exec_of_not_out {l : List ι} {w : ℕ} (h : ∀ i ∈ l, L.out i ≠ w) (e : ℕ → V) :
    L.exec e l w = e w := by
  induction l generalizing e with
  | nil => rfl
  | cons i l ih =>
    have hi := h i (List.mem_cons_self ..)
    have hl : ∀ j ∈ l, L.out j ≠ w := fun j hj => h j (List.mem_cons_of_mem _ hj)
    rw [exec, List.foldl_cons, ← exec, ih hl, step_of_ne hi.symm]

theorem exec_solves {l : List ι} (h : L.Ordered l) (e : ℕ → V) {i : ι} (hi : i ∈ l) :
    L.Solves (L.exec e l) i := by
  obtain ⟨hp, hself⟩ := h
  induction l generalizing e with
  | nil => simp at hi
  | cons j l ih =>
    obtain ⟨hj, hl⟩ := List.pairwise_cons.mp hp
    have hself' : ∀ k ∈ l, L.out k ∉ L.reads k := fun k hk => hself k (List.mem_cons_of_mem _ hk)
    rcases List.mem_cons.mp hi with rfl | hmem
    · have hout : L.exec (L.step e i) l (L.out i) = L.fn i e := by
        rw [exec_of_not_out (fun k hk => (hj k hk).1), step, Function.update_self]
      have hreads : ∀ r ∈ L.reads i, L.exec (L.step e i) l r = e r := by
        intro r hr
        rw [exec_of_not_out (fun k hk hkr => (hj k hk).2 (hkr ▸ hr)), step_of_ne]
        rintro rfl
        exact hself i (List.mem_cons_self ..) hr
      rw [Solves, exec, List.foldl_cons, ← exec, hout]
      exact (L.congr i _ _ hreads).symm
    · exact ih (L.step e j) hmem hl hself'

end Language

end StraightLine
