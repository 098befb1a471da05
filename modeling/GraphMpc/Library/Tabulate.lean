import Mathlib.Algebra.Group.End
import Mathlib.Logic.Equiv.Basic
import Mathlib.Data.List.Basic
import Mathlib.Data.List.GetD
import Mathlib.Tactic.Common

namespace Tabulate

variable {α β : Type}

def tab (n : ℕ) (f : ℕ → α) : List α := (List.range n).map f

@[simp] theorem tab_length (n : ℕ) (f : ℕ → α) : (tab n f).length = n := by
  simp [tab]

theorem tab_getD (n : ℕ) (f : ℕ → α) (z : α) (i : ℕ) :
    (tab n f).getD i z = if i < n then f i else z := by
  by_cases h : i < n
  · simp [tab, h]
  · simp [tab, h]

@[simp] theorem tab_getD_lt {n i : ℕ} (f : ℕ → α) (z : α) (h : i < n) :
    (tab n f).getD i z = f i := by
  rw [tab_getD, if_pos h]

theorem tab_getElem? (n : ℕ) (f : ℕ → α) (i : ℕ) :
    (tab n f)[i]? = if i < n then some (f i) else none := by
  by_cases h : i < n
  · simp [tab, h]
  · simp [tab, h]

theorem tab_congr {n : ℕ} {f g : ℕ → α} (h : ∀ i < n, f i = g i) : tab n f = tab n g := by
  apply List.map_congr_left
  intro i hi
  exact h i (List.mem_range.mp hi)

@[simp] theorem tab_zero (f : ℕ → α) : tab 0 f = [] := rfl

theorem mem_tab {n : ℕ} {f : ℕ → α} {a : α} : a ∈ tab n f ↔ ∃ i < n, f i = a := by
  simp [tab]

theorem ext_getD {a b : List α} (z : α) (hl : a.length = b.length)
    (h : ∀ i < a.length, a.getD i z = b.getD i z) : a = b := by
  apply List.ext_getElem hl
  intro i ha hb
  have hi := h i ha
  rwa [List.getD_eq_getElem _ _ ha, List.getD_eq_getElem _ _ hb] at hi

theorem eq_tab {a : List α} {n : ℕ} {f : ℕ → α} (z : α) (hl : a.length = n)
    (h : ∀ i < n, a.getD i z = f i) : a = tab n f := by
  apply ext_getD z (by simpa using hl)
  intro i hi
  rw [hl] at hi
  rw [h i hi, tab_getD_lt _ _ hi]

theorem tab_eq_iff {n : ℕ} {f g : ℕ → α} : tab n f = tab n g ↔ ∀ i < n, f i = g i := by
  refine ⟨fun h i hi => ?_, tab_congr⟩
  have hh := congrArg (fun l => l[i]?) h
  simp only [tab_getElem?, hi, if_true, Option.some.injEq] at hh
  exact hh

theorem take_eq_tab {a : List α} {n : ℕ} (z : α) (h : n ≤ a.length) :
    a.take n = tab n (fun i => a.getD i z) := by
  apply eq_tab z (by rw [List.length_take, Nat.min_eq_left h])
  intro i hi
  simp [List.getD_eq_getElem?_getD, hi]

@[simp] theorem tab_map (n : ℕ) (f : ℕ → α) (g : α → β) : (tab n f).map g = tab n (g ∘ f) := by
  simp [tab]

theorem tab_const (n : ℕ) (z : α) : tab n (fun _ => z) = List.replicate n z := by
  simp [tab, List.map_const']

def scatter (n : ℕ) (z : α) (p : ℕ → ℕ) (x : ℕ → α) : List α :=
  (List.range n).foldl (fun v i => v.set (p i) (x i)) (List.replicate n z)

theorem foldl_set_length (p : ℕ → ℕ) (x : ℕ → α) (l : List ℕ) (v : List α) :
    (l.foldl (fun v i => v.set (p i) (x i)) v).length = v.length := by
  induction l generalizing v with
  | nil => rfl
  | cons i l ih => simp [ih]

theorem foldl_set_getD (p : ℕ → ℕ) (x : ℕ → α) (z : α) (l : List ℕ) (v : List α)
    (hinj : l.Pairwise (fun i j => p i ≠ p j)) {i : ℕ} (hi : i ∈ l) (hlt : p i < v.length) :
    (l.foldl (fun v i => v.set (p i) (x i)) v).getD (p i) z = x i := by
  induction l generalizing v with
  | nil => simp at hi
  | cons j l ih =>
    obtain ⟨hj, hl⟩ := List.pairwise_cons.mp hinj
    rw [List.foldl_cons]
    rcases List.mem_cons.mp hi with rfl | hmem
    · have hkeep : ∀ (l : List ℕ) (v : List α), (∀ k ∈ l, p i ≠ p k) →
          (l.foldl (fun v i => v.set (p i) (x i)) v).getD (p i) z = v.getD (p i) z := by
        intro l
        induction l with
        | nil => intro v _; rfl
        | cons k l ihl =>
          intro v hk
          rw [List.foldl_cons, ihl _ (fun m hm => hk m (List.mem_cons_of_mem _ hm))]
          have hne := hk k (List.mem_cons_self ..)
          simp [List.getD_eq_getElem?_getD, List.getElem?_set_ne (Ne.symm hne)]
      rw [hkeep l _ hj]
      simp [List.getD_eq_getElem?_getD, hlt]
    · exact ih _ hl hmem (by simpa using hlt)

@[simp] theorem scatter_length (n : ℕ) (z : α) (p : ℕ → ℕ) (x : ℕ → α) :
    (scatter n z p x).length = n := by
  simp [scatter, foldl_set_length]

theorem scatter_congr {n : ℕ} {z : α} {p q : ℕ → ℕ} {x y : ℕ → α}
    (hp : ∀ i < n, p i = q i) (hx : ∀ i < n, x i = y i) :
    scatter n z p x = scatter n z q y := by
  apply List.foldl_ext
  intro v i hi
  rw [hp i (List.mem_range.mp hi), hx i (List.mem_range.mp hi)]

def Keeps (n : ℕ) (σ : Equiv.Perm ℕ) : Prop := ∀ i, σ i < n ↔ i < n

namespace Keeps

variable {n : ℕ} {σ τ : Equiv.Perm ℕ}

theorem one (n : ℕ) : Keeps n 1 := fun _ => Iff.rfl

theorem mul (hσ : Keeps n σ) (hτ : Keeps n τ) : Keeps n (σ * τ) :=
  fun i => (hσ (τ i)).trans (hτ i)

theorem inv (hσ : Keeps n σ) : Keeps n σ⁻¹ := by
  intro i
  simpa using (hσ (σ⁻¹ i)).symm

theorem symm_lt (hσ : Keeps n σ) {i : ℕ} (hi : i < n) : σ.symm i < n :=
  (hσ.inv i).mpr hi

theorem lt (hσ : Keeps n σ) {i : ℕ} (hi : i < n) : σ i < n := (hσ i).mpr hi

theorem swap {i j : ℕ} (hi : i < n) (hj : j < n) : Keeps n (Equiv.swap i j) := by
  intro k
  rcases eq_or_ne k i with rfl | hki
  · simp [hi, hj]
  · rcases eq_or_ne k j with rfl | hkj
    · simp [hi, hj]
    · rw [Equiv.swap_apply_of_ne_of_ne hki hkj]

end Keeps

theorem scatter_perm {n : ℕ} {σ : Equiv.Perm ℕ} (hσ : Keeps n σ) (z : α) (x : ℕ → α) :
    scatter n z σ x = tab n (fun i => x (σ.symm i)) := by
  apply eq_tab z (scatter_length ..)
  intro i hi
  have hj : σ.symm i < n := hσ.symm_lt hi
  have hinj : (List.range n).Pairwise (fun i j => σ i ≠ σ j) :=
    List.nodup_range.imp (fun hne he => hne (σ.injective he))
  have h := foldl_set_getD σ x z (List.range n) (List.replicate n z) hinj
    (List.mem_range.mpr hj) (by simpa using hi)
  rwa [Equiv.apply_symm_apply] at h

end Tabulate
