import Mathlib.Data.List.Basic

namespace Lockstep

variable {S A B A' B' : Type}

def InStep (R : A → A' → Prop) (f : StateM S A) (g : StateM S A') : Prop :=
  ∀ s, R (f s).1 (g s).1 ∧ (f s).2 = (g s).2

namespace InStep

variable {R : A → A' → Prop} {Q : B → B' → Prop} {f : StateM S A} {g : StateM S A'}

theorem pure {a : A} {a' : A'} (h : R a a') : InStep R (Pure.pure a : StateM S A) (Pure.pure a') :=
  fun _ => ⟨h, rfl⟩

theorem bind {f' : A → StateM S B} {g' : A' → StateM S B'} (h : InStep R f g)
    (h' : ∀ a a', R a a' → InStep Q (f' a) (g' a')) : InStep Q (f >>= f') (g >>= g') := fun s => by
  have hq := h' _ _ (h s).1 (f s).2
  refine ⟨?_, ?_⟩
  · change Q (f' (f s).1 (f s).2).1 (g' (g s).1 (g s).2).1
    rw [← (h s).2]
    exact hq.1
  · change (f' (f s).1 (f s).2).2 = (g' (g s).1 (g s).2).2
    rw [← (h s).2]
    exact hq.2

theorem mapM_range {f : ℕ → StateM S A} {g : ℕ → StateM S A'} {R : ℕ → A → A' → Prop} (z : A)
    (z' : A') {n : ℕ} (h : ∀ i < n, InStep (R i) (f i) (g i)) :
    InStep (fun as bs => as.length = n ∧ bs.length = n ∧ ∀ i < n, R i (as.getD i z) (bs.getD i z'))
      ((List.range n).mapM f) ((List.range n).mapM g) := by
  have hshift : ∀ (n k : ℕ), (∀ i < n, InStep (R (k + i)) (f (k + i)) (g (k + i))) → InStep
      (fun as bs => as.length = n ∧ bs.length = n ∧
        ∀ i < n, R (k + i) (as.getD i z) (bs.getD i z'))
      ((List.range' k n).mapM f) ((List.range' k n).mapM g) := by
    intro n
    induction n with
    | zero => exact fun k _ => pure ⟨rfl, rfl, fun i hi => absurd hi (Nat.not_lt_zero i)⟩
    | succ n ih =>
      intro k h
      rw [List.range'_succ, List.mapM_cons, List.mapM_cons]
      refine (h 0 n.succ_pos).bind fun a a' ha => (ih (k + 1) fun i hi => ?_).bind
        fun as bs hab => pure ?_
      · have hi := h (i + 1) (Nat.succ_lt_succ hi)
        rwa [← Nat.add_assoc, Nat.add_right_comm] at hi
      · refine ⟨congrArg _ hab.1, congrArg _ hab.2.1, fun i hi => ?_⟩
        cases i with
        | zero => exact ha
        | succ i =>
          have hi := hab.2.2 i (Nat.lt_of_succ_lt_succ hi)
          rwa [Nat.add_right_comm, Nat.add_assoc] at hi
  have h0 := hshift n 0 fun i hi => by
    rw [Nat.zero_add]
    exact h i hi
  simp only [Nat.zero_add] at h0
  rwa [List.range_eq_range']

end InStep

end Lockstep
