import GraphMpc.Permutation
import GraphMpc.Library.FisherYates
import GraphMpc.Library.StableOrder

namespace GraphMpc

open Tabulate FisherYates

namespace Permutation

variable {n : ℕ}

def residues (n : ℕ) (g : PRG) (i : ℕ) : ℕ := (g.word (g.pos + i)).toNat % (n - i)

def draw (n : ℕ) (k : ℕ → ℕ) : Vec :=
  (List.range n).foldl (fun v i => swap v i (i + k i)) (iota n).permVec

def IsPermutation (n : ℕ) (v : Vec) : Prop := (v.map BitVec.toNat).Perm (List.range n)

theorem random_foldl (n : ℕ) (g : PRG) (m : ℕ) :
    (List.range m).foldl (randomStep n) ((iota n).permVec, g) =
      ((List.range m).foldl (fun v i => swap v i (i + residues n g i)) (iota n).permVec,
        g.skip m) := by
  induction m with
  | zero => rfl
  | succ m ih =>
    rw [List.range_succ, List.foldl_append, List.foldl_append, ih]
    rfl

theorem random_draw (n : ℕ) (g : PRG) : random n g = (⟨draw n (residues n g)⟩, g.skip n) := by
  rw [random, random_foldl]
  rfl

def ofWords (ws : List (BitVec 64)) : Permutation :=
  ⟨draw ws.length fun i => (ws.getD i 0).toNat % (ws.length - i)⟩

theorem random_words (n : ℕ) (g : PRG) : random n g = (ofWords (g.words n), g.skip n) := by
  rw [random_draw, ofWords, PRG.words_length, draw, draw]
  refine congrArg (fun v => ((⟨v⟩ : Permutation), g.skip n)) (List.foldl_ext _ _ _ fun v i hi => ?_)
  rw [residues, PRG.words, tab_getD_lt _ _ (List.mem_range.mp hi)]

theorem residues_lt (g : PRG) {i : ℕ} (hi : i < n) : residues n g i < n - i :=
  Nat.mod_lt _ (Nat.sub_pos_of_lt hi)

theorem swaps_keeps {k : ℕ → ℕ} (hk : ∀ i < n, k i < n - i) {l : List ℕ} (hl : ∀ i ∈ l, i < n) :
    Keeps n (swaps k l) := by
  induction l with
  | nil => exact .one n
  | cons i l ih =>
    have hi := hl i (List.mem_cons_self ..)
    have hlt := hk i hi
    rw [swaps_cons]
    exact (Keeps.swap hi (by omega)).mul (ih fun j hj => hl j (List.mem_cons_of_mem _ hj))

theorem foldl_swap {k : ℕ → ℕ} (hk : ∀ i < n, k i < n - i) {l : List ℕ} (hl : ∀ i ∈ l, i < n)
    (σ : Equiv.Perm ℕ) : l.foldl (fun v i => swap v i (i + k i)) (ofPerm n σ).permVec =
      (ofPerm n (σ * swaps k l)).permVec := by
  induction l generalizing σ with
  | nil => rfl
  | cons i l ih =>
    have hi := hl i (List.mem_cons_self ..)
    have hlt := hk i hi
    rw [List.foldl_cons, swap_ofPerm hi (by omega),
      ih (fun j hj => hl j (List.mem_cons_of_mem _ hj)), swaps_cons, mul_assoc]

theorem draw_ofPerm {k : ℕ → ℕ} (hk : ∀ i < n, k i < n - i) :
    draw n k = (ofPerm n (swaps k (List.range n))).permVec := by
  have h := foldl_swap hk (fun i hi => List.mem_range.mp hi) 1 (l := List.range n)
  rwa [one_mul] at h

theorem isPermutation_ofPerm {σ : Equiv.Perm ℕ} (hn : n ≤ 2 ^ 32) (hσ : Keeps n σ) :
    IsPermutation n (ofPerm n σ).permVec := by
  have hmap : ((ofPerm n σ).permVec.map BitVec.toNat) = (List.range n).map σ := by
    rw [ofPerm, tab_map]
    refine tab_congr fun i hi => ?_
    have hlt := (hσ.lt hi).trans_le hn
    rw [Function.comp_apply, BitVec.toNat_ofNat, Nat.mod_eq_of_lt hlt]
  rw [IsPermutation, hmap]
  refine (List.perm_ext_iff_of_nodup (List.nodup_range.map σ.injective) List.nodup_range).mpr
    fun i => ?_
  simp only [List.mem_map, List.mem_range]
  refine ⟨?_, fun hi => ⟨σ.symm i, hσ.symm_lt hi, σ.apply_symm_apply i⟩⟩
  rintro ⟨j, hj, rfl⟩
  exact hσ.lt hj

theorem exists_ofPerm {v : Vec} (h : IsPermutation n v) : ∃ σ, Keeps n σ ∧
    (∀ j, n ≤ j → σ j = j) ∧ v = (ofPerm n σ).permVec := by
  have hlen : v.length = n := by
    have := h.length_eq
    rwa [List.length_map, List.length_range] at this
  have hlen' : (v.map BitVec.toNat).length = n := by rw [List.length_map, hlen]
  have hget : ∀ i (hi : i < (v.map BitVec.toNat).length),
      (v.getD i 0).toNat = (v.map BitVec.toNat)[i] := fun i hi => by
    rw [List.getElem_map, List.getD_eq_getElem _ _ (List.length_map BitVec.toNat ▸ hi)]
  have hlt : ∀ i < n, (v.getD i 0).toNat < n := fun i hi => by
    rw [hget i (hlen'.symm ▸ hi)]
    exact List.mem_range.mp (h.mem_iff.mp (List.getElem_mem _))
  have hinj : ∀ i < n, ∀ j < n, (v.getD i 0).toNat = (v.getD j 0).toNat → i = j := by
    intro i hi j hj he
    rw [hget i (hlen'.symm ▸ hi), hget j (hlen'.symm ▸ hj)] at he
    exact (h.nodup_iff.mpr List.nodup_range).getElem_inj_iff.mp he
  refine ⟨StableOrder.extend n _ hlt hinj, StableOrder.extend_keeps hlt hinj,
    fun j hj => if_neg hj.not_gt, eq_tab 0 hlen fun i hi => ?_⟩
  rw [StableOrder.extend_apply hi, BitVec.ofNat_toNat, BitVec.setWidth_eq]

theorem draw_isPermutation (hn : n ≤ 2 ^ 32) {k : ℕ → ℕ} (hk : ∀ i < n, k i < n - i) :
    IsPermutation n (draw n k) := by
  rw [draw_ofPerm hk]
  exact isPermutation_ofPerm hn (swaps_keeps hk fun i hi => List.mem_range.mp hi)

theorem ofPerm_injective (hn : n ≤ 2 ^ 32) {σ τ : Equiv.Perm ℕ} (hσ : Keeps n σ)
    (hτ : Keeps n τ) (hσ' : ∀ j, n ≤ j → σ j = j) (hτ' : ∀ j, n ≤ j → τ j = j)
    (h : (ofPerm n σ).permVec = (ofPerm n τ).permVec) : σ = τ := by
  ext i
  rcases Nat.lt_or_ge i n with hi | hi
  · have he : (ofPerm n σ).entry i = (ofPerm n τ).entry i := by rw [entry, entry, h]
    rwa [ofPerm_entry hn hσ hi, ofPerm_entry hn hτ hi] at he
  · rw [hσ' i hi, hτ' i hi]

theorem swaps_fixes {k : ℕ → ℕ} (hk : ∀ i < n, k i < n - i) {l : List ℕ} (hl : ∀ i ∈ l, i < n)
    {j : ℕ} (hj : n ≤ j) : swaps k l j = j := by
  induction l with
  | nil => rfl
  | cons i l ih =>
    have hi := hl i (List.mem_cons_self ..)
    have hlt := hk i hi
    rw [swaps_cons, Equiv.Perm.mul_apply, ih fun i hi => hl i (List.mem_cons_of_mem _ hi)]
    exact Equiv.swap_apply_of_ne_of_ne (by omega) (by omega)

def sequence (k : (i : Fin n) → Fin (n - i)) (i : ℕ) : ℕ := if h : i < n then k ⟨i, h⟩ else 0

theorem sequence_eq (k : (i : Fin n) → Fin (n - i)) (i : Fin n) : sequence k i = k i :=
  dif_pos i.2

theorem sequence_lt (k : (i : Fin n) → Fin (n - i)) {i : ℕ} (hi : i < n) :
    sequence k i < n - i := by
  rw [sequence, dif_pos hi]
  exact (k ⟨i, hi⟩).2

def sample (hn : n < 2 ^ 31) (k : (i : Fin n) → Fin (n - i)) : {v : Vec // IsPermutation n v} :=
  ⟨draw n (sequence k), draw_isPermutation (hn.le.trans (by decide)) fun _ => sequence_lt k⟩

theorem sample_bijective (hn : n < 2 ^ 31) : Function.Bijective (sample hn) := by
  have hn' : n ≤ 2 ^ 32 := hn.le.trans (by decide)
  have hrange : ∀ i ∈ List.range n, i < n := fun i hi => List.mem_range.mp hi
  refine ⟨fun k k' h => ?_, fun v => ?_⟩
  · have hk : ∀ i < n, sequence k i < n - i := fun _ => sequence_lt k
    have hk' : ∀ i < n, sequence k' i < n - i := fun _ => sequence_lt k'
    have he := congrArg Subtype.val h
    simp only [sample, draw_ofPerm hk, draw_ofPerm hk'] at he
    have hswaps := ofPerm_injective hn' (swaps_keeps hk hrange) (swaps_keeps hk' hrange)
      (fun _ => swaps_fixes hk hrange) (fun _ => swaps_fixes hk' hrange) he
    rw [List.range_eq_range'] at hswaps
    funext i
    have hi := swaps_injective hswaps i (List.mem_range'_1.mpr ⟨Nat.zero_le _, by omega⟩)
    rwa [sequence_eq, sequence_eq, ← Fin.ext_iff] at hi
  · obtain ⟨σ, hσ, hfix, hv⟩ := exists_ofPerm v.2
    obtain ⟨k, hk, he⟩ := swaps_surjective (i := 0) (m := n) (fun j hj => absurd hj (Nat.not_lt_zero j))
      fun j hj => hfix j (by omega)
    have hk : ∀ i < n, k i < n - i := fun i hi => by
      have := hk i (List.mem_range'_1.mpr ⟨Nat.zero_le _, by omega⟩)
      omega
    refine ⟨fun i => ⟨k i, hk i i.2⟩, Subtype.ext ?_⟩
    have hseq : ∀ i < n, sequence (fun i : Fin n => (⟨k i, hk i i.2⟩ : Fin (n - i))) i = k i :=
      fun i hi => dif_pos hi
    simp only [sample]
    rw [draw_ofPerm fun _ => sequence_lt _, hv, swaps_congr fun i hi => hseq i (hrange i hi),
      List.range_eq_range', he]

theorem random_exact (n : ℕ) (hn : n < 2 ^ 31) :
    (∀ g, IsPermutation n (random n g).1.permVec) ∧
      (∀ g, (random n g).1.permVec =
        (sample hn fun i => ⟨residues n g i, residues_lt g i.2⟩).1) ∧
      Function.Bijective (sample hn) := by
  have hg : ∀ g, (random n g).1.permVec =
      (sample hn fun i => ⟨residues n g i, residues_lt g i.2⟩).1 := fun g => by
    have hk : ∀ i < n, residues n g i < n - i := fun _ => residues_lt g
    have hseq : ∀ i ∈ List.range n, sequence
        (fun i : Fin n => (⟨residues n g i, residues_lt g i.2⟩ : Fin (n - i))) i = residues n g i :=
      fun i hi => dif_pos (List.mem_range.mp hi)
    have hdraw : draw n (residues n g) = draw n
        (sequence fun i : Fin n => (⟨residues n g i, residues_lt g i.2⟩ : Fin (n - i))) := by
      rw [draw_ofPerm hk, draw_ofPerm fun _ => sequence_lt _, swaps_congr hseq]
    rw [random_draw]
    exact hdraw
  exact ⟨fun g => hg g ▸ (sample hn _).2, hg, sample_bijective hn⟩

theorem random_exact_three : Function.Bijective (@sample 3 (by decide)) :=
  (random_exact 3 (by decide)).2.2

end Permutation

end GraphMpc
