import GraphMpc.Random

namespace GraphMpc

open Tabulate

structure Permutation where
  permVec : Vec
  deriving DecidableEq, Repr

namespace Permutation

def null : Permutation := ⟨[]⟩

def iota (n : ℕ) : Permutation := ⟨tab n (BitVec.ofNat 32)⟩

def entry (p : Permutation) (i : ℕ) : ℕ := (p.permVec.getD i 0).toNat

def swap (v : Vec) (i j : ℕ) : Vec := (v.set i (v.getD j 0)).set j (v.getD i 0)

def randomStep (nRows : ℕ) (s : Vec × PRG) (i : ℕ) : Vec × PRG :=
  let (k, rng) := s.2.nextSize
  (swap s.1 i (i + k % (nRows - i)), rng)

def random (nRows : ℕ) (rng : PRG) : Permutation × PRG :=
  let s := (List.range nRows).foldl (randomStep nRows) ((iota nRows).permVec, rng)
  (⟨s.1⟩, s.2)

def inverse (p : Permutation) : Permutation :=
  ⟨scatter p.permVec.length 0 p.entry (BitVec.ofNat 32)⟩

def size (p : Permutation) : ℕ := p.permVec.length

def apply (p : Permutation) (x : Vec) : Vec :=
  scatter p.permVec.length 0 p.entry (fun i => x.getD i 0)

def mul (p q : Permutation) : Permutation :=
  ⟨tab p.permVec.length fun i => p.permVec.getD (q.entry i) 0⟩

section ofPerm

variable {n : ℕ} {σ τ : Equiv.Perm ℕ}

def ofPerm (n : ℕ) (σ : Equiv.Perm ℕ) : Permutation := ⟨tab n fun i => BitVec.ofNat 32 (σ i)⟩

@[simp] theorem ofPerm_length (n : ℕ) (σ : Equiv.Perm ℕ) : (ofPerm n σ).permVec.length = n :=
  tab_length ..

@[simp] theorem ofPerm_size (n : ℕ) (σ : Equiv.Perm ℕ) : (ofPerm n σ).size = n := tab_length ..

theorem ofPerm_entry (hn : n ≤ 2 ^ 32) (hσ : Keeps n σ) {i : ℕ} (hi : i < n) :
    (ofPerm n σ).entry i = σ i := by
  have hlt : σ i < 2 ^ 32 := (hσ.lt hi).trans_le hn
  simp only [entry, ofPerm]
  rw [tab_getD_lt _ _ hi, BitVec.toNat_ofNat, Nat.mod_eq_of_lt hlt]

theorem apply_ofPerm (hn : n ≤ 2 ^ 32) (hσ : Keeps n σ) (x : Vec) :
    (ofPerm n σ).apply x = tab n fun i => x.getD (σ.symm i) 0 := by
  rw [← scatter_perm hσ 0 (fun i => x.getD i 0)]
  simp only [apply, ofPerm_length]
  exact scatter_congr (fun i hi => ofPerm_entry hn hσ hi) (fun _ _ => rfl)

theorem inverse_ofPerm (hn : n ≤ 2 ^ 32) (hσ : Keeps n σ) :
    (ofPerm n σ).inverse = ofPerm n σ⁻¹ := by
  have h : scatter n 0 (ofPerm n σ).entry (BitVec.ofNat 32) = scatter n 0 σ (BitVec.ofNat 32) :=
    scatter_congr (fun i hi => ofPerm_entry hn hσ hi) (fun _ _ => rfl)
  simp only [inverse, ofPerm_length, h, scatter_perm hσ]
  rfl

theorem mul_ofPerm (hn : n ≤ 2 ^ 32) (hτ : Keeps n τ) :
    (ofPerm n σ).mul (ofPerm n τ) = ofPerm n (σ * τ) := by
  simp only [mul, ofPerm_length]
  refine congrArg mk (tab_congr fun i hi => ?_)
  rw [ofPerm_entry hn hτ hi, ofPerm, tab_getD_lt _ _ (hτ.lt hi), Equiv.Perm.mul_apply]

theorem swap_ofPerm {i j : ℕ} (hi : i < n) (hj : j < n) :
    swap (ofPerm n σ).permVec i j = (ofPerm n (σ * Equiv.swap i j)).permVec := by
  apply eq_tab 0 (by simp [swap])
  intro k hk
  simp only [swap, ofPerm, tab_getD_lt _ _ hi, tab_getD_lt _ _ hj, Equiv.Perm.mul_apply]
  rcases eq_or_ne k j with rfl | hkj
  · simp [List.getD_eq_getElem?_getD, hk]
  · rcases eq_or_ne k i with rfl | hki
    · simp [List.getD_eq_getElem?_getD, hkj.symm, hk]
    · rw [Equiv.swap_apply_of_ne_of_ne hki hkj, List.getD_eq_getElem?_getD,
        List.getElem?_set_ne hkj.symm, List.getElem?_set_ne hki.symm,
        ← List.getD_eq_getElem?_getD, tab_getD_lt _ _ hk]

theorem randomStep_ofPerm {i : ℕ} (hi : i < n) (hσ : Keeps n σ) (g : PRG) :
    ∃ τ, Keeps n τ ∧ (randomStep n ((ofPerm n σ).permVec, g) i).1 = (ofPerm n τ).permVec := by
  have hk : i + g.nextSize.1 % (n - i) < n := by
    have := Nat.mod_lt g.nextSize.1 (Nat.sub_pos_of_lt hi)
    omega
  exact ⟨_, hσ.mul (.swap hi hk), swap_ofPerm hi hk⟩

theorem random_ofPerm (n : ℕ) (g : PRG) : ∃ σ, Keeps n σ ∧ (random n g).1 = ofPerm n σ := by
  have run : ∀ (l : List ℕ) (σ : Equiv.Perm ℕ) (g : PRG), (∀ i ∈ l, i < n) → Keeps n σ →
      ∃ τ, Keeps n τ ∧
        (l.foldl (randomStep n) ((ofPerm n σ).permVec, g)).1 = (ofPerm n τ).permVec := by
    intro l
    induction l with
    | nil => intro σ g _ hσ; exact ⟨σ, hσ, rfl⟩
    | cons i l ih =>
      intro σ g hl hσ
      obtain ⟨τ, hτ, he⟩ := randomStep_ofPerm (hl i (List.mem_cons_self ..)) hσ g
      obtain ⟨υ, hυ, hr⟩ := ih τ (randomStep n ((ofPerm n σ).permVec, g) i).2
        (fun j hj => hl j (List.mem_cons_of_mem _ hj)) hτ
      refine ⟨υ, hυ, ?_⟩
      rw [← he] at hr
      exact hr
  obtain ⟨τ, hτ, he⟩ := run (List.range n) 1 g (fun i hi => List.mem_range.mp hi) (.one n)
  exact ⟨τ, hτ, congrArg Permutation.mk he⟩

end ofPerm

end Permutation

end GraphMpc
