import GraphMpc.Library.Tabulate
import Mathlib.Data.Nat.Count
import Mathlib.Data.Fintype.Card
import Mathlib.Tactic.Common

namespace StableOrder

open Tabulate

section partition

variable {n : ℕ} {b : ℕ → Bool}

-- the position of entry i after a stable partition of 0..n-1 into false entries before true ones
def dest (n : ℕ) (b : ℕ → Bool) (i : ℕ) : ℕ :=
  if b i then Nat.count (fun j => b j = false) n + Nat.count (fun j => b j = true) i
  else Nat.count (fun j => b j = false) i

theorem count_split (b : ℕ → Bool) (n : ℕ) :
    Nat.count (fun j => b j = false) n + Nat.count (fun j => b j = true) n = n := by
  induction n with
  | zero => simp
  | succ n ih =>
    rw [Nat.count_succ, Nat.count_succ]
    cases b n <;> simp <;> omega

theorem dest_lt {i : ℕ} (hi : i < n) : dest n b i < n := by
  have hs := count_split b n
  unfold dest
  split
  · rename_i hb
    have := Nat.count_strict_mono (p := fun j => b j = true) hb hi
    omega
  · rename_i hb
    have hb' : b i = false := by simpa using hb
    have := Nat.count_strict_mono (p := fun j => b j = false) hb' hi
    omega

theorem dest_congr {c : ℕ → Bool} (h : ∀ j < n, b j = c j) {i : ℕ} (hi : i < n) :
    dest n b i = dest n c i := by
  have hc : ∀ v m, m ≤ n → Nat.count (fun j => b j = v) m = Nat.count (fun j => c j = v) m := by
    intro v m hm
    apply le_antisymm
    · exact Nat.count_mono_left fun k hk hb => (h k (hk.trans_le hm)) ▸ hb
    · exact Nat.count_mono_left fun k hk hb => (h k (hk.trans_le hm)).symm ▸ hb
  simp only [dest, h i hi, hc _ n le_rfl, hc _ i hi.le]

theorem dest_lt_dest {i j : ℕ} (hi : i < n) (hj : j < n) :
    dest n b i < dest n b j ↔ (b i < b j ∨ b i = b j ∧ i < j) := by
  have hmono : ∀ v, ∀ {k l : ℕ}, b k = v → b l = v →
      (Nat.count (fun m => b m = v) k < Nat.count (fun m => b m = v) l ↔ k < l) := by
    intro v k l hk hl
    refine ⟨Nat.lt_of_count_lt_count, fun hkl => Nat.count_strict_mono hk hkl⟩
  have hlt : ∀ {k : ℕ}, k < n → b k = false →
      Nat.count (fun m => b m = false) k < Nat.count (fun m => b m = false) n :=
    fun hk hb => Nat.count_strict_mono hb hk
  unfold dest
  cases hbi : b i <;> cases hbj : b j
  · simp [hmono false hbi hbj]
  · have := hlt hi hbi
    simp
    omega
  · have := hlt hj hbj
    have hf : ¬ (true < false) := by decide
    simp [hf]
    omega
  · simp [hmono true hbi hbj]

theorem dest_injOn {i j : ℕ} (hi : i < n) (hj : j < n) (h : dest n b i = dest n b j) : i = j := by
  have hij := dest_lt_dest (b := b) hi hj
  have hji := dest_lt_dest (b := b) hj hi
  rw [h] at hij hji
  simp only [lt_irrefl, false_iff] at hij hji
  rcases lt_trichotomy (b i) (b j) with hb | hb | hb
  · exact absurd (Or.inl hb) hij
  · rcases lt_trichotomy i j with hlt | heq | hlt
    · exact absurd (Or.inr ⟨hb, hlt⟩) hij
    · exact heq
    · exact absurd (Or.inr ⟨hb.symm, hlt⟩) hji
  · exact absurd (Or.inl hb) hji

end partition

section extension

variable {n : ℕ} {f : ℕ → ℕ}

theorem extend_bijective (hlt : ∀ i < n, f i < n)
    (hinj : ∀ i < n, ∀ j < n, f i = f j → i = j) :
    Function.Bijective fun i => if i < n then f i else i := by
  let g : Fin n → Fin n := fun i => ⟨f i, hlt i i.2⟩
  have hg : Function.Surjective g := by
    apply Finite.surjective_of_injective
    intro i j h
    exact Fin.ext (hinj i i.2 j j.2 (congrArg Fin.val h))
  constructor
  · intro i j h
    dsimp only at h
    split at h <;> split at h
    · exact hinj i ‹_› j ‹_› h
    · have := hlt i ‹_›
      omega
    · have := hlt j ‹_›
      omega
    · exact h
  · intro k
    by_cases hk : k < n
    · obtain ⟨i, hi⟩ := hg ⟨k, hk⟩
      exact ⟨i, by simpa [g, i.2] using congrArg Fin.val hi⟩
    · exact ⟨k, if_neg hk⟩

noncomputable def extend (n : ℕ) (f : ℕ → ℕ) (hlt : ∀ i < n, f i < n)
    (hinj : ∀ i < n, ∀ j < n, f i = f j → i = j) : Equiv.Perm ℕ :=
  Equiv.ofBijective _ (extend_bijective hlt hinj)

theorem extend_apply {hlt : ∀ i < n, f i < n} {hinj : ∀ i < n, ∀ j < n, f i = f j → i = j}
    {i : ℕ} (hi : i < n) : extend n f hlt hinj i = f i :=
  if_pos hi

theorem extend_keeps (hlt : ∀ i < n, f i < n) (hinj : ∀ i < n, ∀ j < n, f i = f j → i = j) :
    Keeps n (extend n f hlt hinj) := by
  intro i
  by_cases hi : i < n
  · simp only [extend_apply hi, hi, hlt i hi]
  · have : extend n f hlt hinj i = i := if_neg hi
    rw [this]

end extension

section sorting

variable {n : ℕ}

noncomputable def partition (n : ℕ) (b : ℕ → Bool) : Equiv.Perm ℕ :=
  extend n (dest n b) (fun _ => dest_lt) (fun _ hi _ hj => dest_injOn hi hj)

theorem partition_apply {b : ℕ → Bool} {i : ℕ} (hi : i < n) : partition n b i = dest n b i :=
  extend_apply hi

theorem partition_keeps (n : ℕ) (b : ℕ → Bool) : Keeps n (partition n b) := extend_keeps _ _

noncomputable def sortStep (n : ℕ) (ρ : Equiv.Perm ℕ) (b : ℕ → Bool) : Equiv.Perm ℕ :=
  partition n (fun p => b (ρ.symm p)) * ρ

theorem sortStep_keeps {ρ : Equiv.Perm ℕ} (hρ : Keeps n ρ) (b : ℕ → Bool) :
    Keeps n (sortStep n ρ b) :=
  (partition_keeps n _).mul hρ

theorem count_symm {ρ : Equiv.Perm ℕ} (hρ : Keeps n ρ) (q : ℕ → Prop) [DecidablePred q] :
    Nat.count (fun p => q (ρ.symm p)) n = Nat.count q n := by
  rw [Nat.count_eq_card_filter_range, Nat.count_eq_card_filter_range]
  refine Finset.card_nbij' ρ.symm ρ ?_ ?_ ?_ ?_
  · intro p hp
    obtain ⟨hp, hq⟩ := Finset.mem_filter.mp hp
    exact Finset.mem_filter.mpr ⟨Finset.mem_range.mpr (hρ.symm_lt (Finset.mem_range.mp hp)), hq⟩
  · intro e he
    obtain ⟨he, hq⟩ := Finset.mem_filter.mp he
    refine Finset.mem_filter.mpr ⟨Finset.mem_range.mpr (hρ.lt (Finset.mem_range.mp he)), ?_⟩
    rwa [Equiv.symm_apply_apply]
  · exact fun p _ => ρ.apply_symm_apply p
  · exact fun e _ => ρ.symm_apply_apply e

theorem sortStep_lt_count {ρ : Equiv.Perm ℕ} (hρ : Keeps n ρ) (b : ℕ → Bool) {i : ℕ} (hi : i < n) :
    sortStep n ρ b i < Nat.count (fun j => b j = false) n ↔ b i = false := by
  have hcount := count_symm hρ fun j => b j = false
  rw [sortStep, Equiv.Perm.mul_apply, partition_apply (hρ.lt hi), dest, Equiv.symm_apply_apply,
    hcount]
  split
  · rename_i hb
    simp [hb]
  · rename_i hb
    have hb : b i = false := by simpa using hb
    rw [← hcount]
    refine iff_of_true (Nat.count_strict_mono ?_ (hρ.lt hi)) hb
    rwa [Equiv.symm_apply_apply]

def Sorts (n : ℕ) (lt : ℕ → ℕ → Prop) (ρ : Equiv.Perm ℕ) : Prop :=
  ∀ i < n, ∀ j < n, ρ i < ρ j ↔ lt i j

def refine (lt : ℕ → ℕ → Prop) (k : ℕ → ℕ) (i j : ℕ) : Prop := k i < k j ∨ k i = k j ∧ lt i j

theorem Sorts.one (n : ℕ) : Sorts n (· < ·) 1 := fun _ _ _ _ => Iff.rfl

theorem Sorts.step {lt : ℕ → ℕ → Prop} {ρ : Equiv.Perm ℕ} (hρ : Keeps n ρ) (h : Sorts n lt ρ)
    (b : ℕ → Bool) : Sorts n (refine lt fun i => (b i).toNat) (sortStep n ρ b) := by
  intro i hi j hj
  have hbool : ∀ c d : Bool, c < d ↔ c.toNat < d.toNat := by decide
  have heq : ∀ c d : Bool, c = d ↔ c.toNat = d.toNat := by decide
  rw [sortStep, Equiv.Perm.mul_apply, Equiv.Perm.mul_apply, partition_apply (hρ.lt hi),
    partition_apply (hρ.lt hj), dest_lt_dest (hρ.lt hi) (hρ.lt hj), Equiv.symm_apply_apply,
    Equiv.symm_apply_apply, h i hi j hj, refine, hbool, heq]

theorem Sorts.congr {lt lt' : ℕ → ℕ → Prop} {ρ : Equiv.Perm ℕ} (h : Sorts n lt ρ)
    (he : ∀ i < n, ∀ j < n, lt i j ↔ lt' i j) : Sorts n lt' ρ :=
  fun i hi j hj => (h i hi j hj).trans (he i hi j hj)

theorem Sorts.le_iff {lt : ℕ → ℕ → Prop} {ρ : Equiv.Perm ℕ} (h : Sorts n lt ρ) {i j : ℕ}
    (hi : i < n) (hj : j < n) : ρ i ≤ ρ j ↔ ¬ lt j i := by
  rw [← h j hj i hi, not_lt]

theorem refine_congr {lt lt' : ℕ → ℕ → Prop} {k k' : ℕ → ℕ} {i j : ℕ} (hi : k i = k' i)
    (hj : k j = k' j) (hl : lt i j ↔ lt' i j) : refine lt k i j ↔ refine lt' k' i j := by
  simp only [refine, hi, hj, hl]

theorem refine_refine (lt : ℕ → ℕ → Prop) {k k' : ℕ → ℕ} {m i j : ℕ} (hi : k i < m) (hj : k j < m) :
    refine (refine lt k) k' i j ↔ refine lt (fun i => k i + m * k' i) i j := by
  simp only [refine]
  rcases lt_trichotomy (k' i) (k' j) with hlt | heq | hlt
  · have := Nat.mul_le_mul_left m hlt
    rw [Nat.mul_succ] at this
    exact iff_of_true (Or.inl hlt) (Or.inl (by omega))
  · simp [heq]
  · have := Nat.mul_le_mul_left m hlt
    rw [Nat.mul_succ] at this
    refine iff_of_false ?_ ?_ <;> omega

def binary : List (ℕ → Bool) → ℕ → ℕ
  | [], _ => 0
  | b :: bs, i => (b i).toNat + 2 * binary bs i

theorem refine_binary (lt : ℕ → ℕ → Prop) (b : ℕ → Bool) (k : ℕ → ℕ) (i j : ℕ) :
    refine (refine lt fun i => (b i).toNat) k i j ↔
      refine lt (fun i => (b i).toNat + 2 * k i) i j := by
  simp only [refine]
  by_cases hlt : lt i j <;> cases b i <;> cases b j <;> simp [hlt] <;> omega

theorem binary_testBit (k : ℕ → ℕ) (m i : ℕ) :
    binary (tab m fun j i => (k i).testBit j) i = k i % 2 ^ m := by
  induction m generalizing k with
  | zero => simp [binary, Nat.mod_one]
  | succ m ih =>
    have htab : (tab (m + 1) fun j i => (k i).testBit j) =
        (fun i => (k i).testBit 0) :: tab m fun j i => (k i / 2).testBit j := by
      simp [tab, List.range_succ_eq_map, Function.comp_def, Nat.testBit_succ]
    rw [htab, binary, ih fun i => k i / 2, Nat.pow_succ', Nat.mod_mul, Nat.testBit_zero]
    rcases Nat.mod_two_eq_zero_or_one (k i) with h | h <;> simp [h]

end sorting

section positions

variable {n : ℕ}

def position (n : ℕ) (key : ℕ → ℕ) (i : ℕ) : ℕ :=
  Nat.count (fun j => key j < key i ∨ key j = key i ∧ j < i) n

theorem count_below {m : ℕ} (hm : m ≤ n) : Nat.count (· < m) n = m := by
  have hsplit := Nat.count_add (p := (· < m)) m (n - m)
  rw [Nat.add_sub_cancel' hm] at hsplit
  rw [hsplit, Nat.count_iff_forall.mpr fun _ h => h,
    Nat.count_iff_forall_not.mpr fun k _ => by omega, Nat.add_zero]

theorem position_congr {key key' : ℕ → ℕ} (h : ∀ i < n, key i = key' i) {i : ℕ} (hi : i < n) :
    position n key i = position n key' i := by
  simp only [position, h i hi]
  refine le_antisymm (Nat.count_mono_left fun j hj hlt => ?_)
    (Nat.count_mono_left fun j hj hlt => ?_)
  · rwa [h j hj] at hlt
  · rwa [h j hj]

theorem Sorts.position_eq {ρ : Equiv.Perm ℕ} (hρ : Keeps n ρ) {key : ℕ → ℕ}
    (h : Sorts n (refine (· < ·) key) ρ) {i : ℕ} (hi : i < n) : ρ i = position n key i := by
  have hcount := count_symm hρ fun j => ρ j < ρ i
  simp only [Equiv.apply_symm_apply, count_below (hρ.lt hi).le] at hcount
  rw [hcount, position]
  refine le_antisymm (Nat.count_mono_left fun j hj hlt => ?_)
    (Nat.count_mono_left fun j hj hlt => ?_)
  · exact (h j hj i hi).mp hlt
  · exact (h j hj i hi).mpr hlt

end positions

end StableOrder
