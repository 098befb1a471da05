import GraphMpc.Evaluator
import Mathlib.Tactic.Ring
import Mathlib.Tactic.SplitIfs

namespace GraphMpc

open Tabulate Permutation

theorem prefixSum_congr {f g : ℕ → Ring} {n : ℕ} (h : ∀ i < n, f i = g i) :
    prefixSum f n = prefixSum g n := by
  induction n with
  | zero => rfl
  | succ n ih =>
    rw [prefixSum, prefixSum, ih fun i hi => h i (by omega), h n (by omega)]

theorem prefixSum_add (f g : ℕ → Ring) (n : ℕ) :
    prefixSum f n + prefixSum g n = prefixSum (fun i => f i + g i) n := by
  induction n with
  | zero => exact add_zero 0
  | succ n ih =>
    simp only [prefixSum, ← ih]
    ring

theorem prefixSum_tab {n i : ℕ} (g : ℕ → Ring) (hi : i ≤ n) :
    prefixSum (fun j => (tab n g).getD j 0) i = prefixSum g i :=
  prefixSum_congr fun _ hj => tab_getD_lt _ _ (hj.trans_le hi)

theorem gather2Sum_eq (f : ℕ → Ring) (i : ℕ) :
    gather2Sum f i = if i = 0 then 0 else f (i - 1) := by
  cases i with
  | zero => rfl
  | succ i =>
    simp only [gather2Sum, Nat.succ_ne_zero, if_false, Nat.add_sub_cancel]
    ring

section evaluation

variable {conf : ProtocolConfig} {f : Gate} {w : ℕ → Vec} {σ : Equiv.Perm ℕ} (id : Party)

theorem localGate_permute (ht : f.type = .permute) (hσ : Keeps conf.size σ)
    (hp : w f.in2Idx = (ofPerm conf.size σ).permVec) (hn : conf.size ≤ (w f.in1Idx).length) :
    localGate conf id f w =
      some (tab conf.size fun i => (w f.in1Idx).getD (σ.symm i) 0) := by
  have hs : ∀ x : ℕ → Ring, scatterVec ⟨(ofPerm conf.size σ).permVec⟩ conf.size x =
      some (tab conf.size fun i => x (σ.symm i)) := fun x => scatterVec_ofPerm conf.size_le hσ x
  simp only [localGate, ht, hp, prefixOf_eq hn, Option.bind_eq_bind, Option.bind_some, hs]
  exact congrArg some (tab_congr fun i hi => tab_getD_lt _ _ (hσ.symm_lt hi))

theorem localGate_reversePermute (ht : f.type = .reversePermute) (hσ : Keeps conf.size σ)
    (hp : w f.in2Idx = (ofPerm conf.size σ).permVec) (hn : conf.size ≤ (w f.in1Idx).length) :
    localGate conf id f w = some (tab conf.size fun i => (w f.in1Idx).getD (σ i) 0) := by
  have hg : gatherVec ⟨(ofPerm conf.size σ).permVec⟩ conf.size (w f.in1Idx) =
      some (tab conf.size fun i => (w f.in1Idx).getD (σ i) 0) :=
    gatherVec_ofPerm conf.size_le hσ hn
  simp only [localGate, ht, hp, hg]

theorem localGate_addConstSIMD (ht : f.type = .addConstSIMD)
    (hn : conf.size ≤ (w f.in1Idx).length) :
    localGate conf id f w = some (tab conf.size fun i =>
      if id = .p0 ∧ i < conf.nodes then (w f.in1Idx).getD i 0 + f.val
      else (w f.in1Idx).getD i 0) := by
  simp only [localGate, ht, prefixOf_eq hn, Option.bind_eq_bind, Option.bind_some]
  exact congrArg some (tab_congr fun i hi => by rw [tab_getD_lt _ _ hi])

theorem localGate_mulConstSIMD (ht : f.type = .mulConstSIMD)
    (hn : conf.size ≤ (w f.in1Idx).length) :
    localGate conf id f w =
      some (tab conf.size fun i => (w f.in1Idx).getD i 0 * f.val) := by
  simp only [localGate, ht, prefixOf_eq hn, Option.bind_eq_bind, Option.bind_some]
  exact congrArg some (tab_congr fun i hi => by rw [tab_getD_lt _ _ hi])

theorem localGate_addSIMD (ht : f.type = .addSIMD) (hn : conf.size ≤ (w f.in1Idx).length)
    (hm : conf.size ≤ (w f.in2Idx).length) :
    localGate conf id f w = some (tab conf.size fun i =>
      (w f.in1Idx).getD i 0 + (w f.in2Idx).getD i 0) := by
  simp only [localGate, ht, prefixOf_eq hn, prefixOf_eq hm, Option.bind_eq_bind, Option.bind_some]
  exact congrArg some (tab_congr fun i hi => by rw [tab_getD_lt _ _ hi, tab_getD_lt _ _ hi])

theorem localGate_subSIMD (ht : f.type = .subSIMD) (hn : conf.size ≤ (w f.in1Idx).length)
    (hm : conf.size ≤ (w f.in2Idx).length) :
    localGate conf id f w = some (tab conf.size fun i =>
      (w f.in1Idx).getD i 0 - (w f.in2Idx).getD i 0) := by
  simp only [localGate, ht, prefixOf_eq hn, prefixOf_eq hm, Option.bind_eq_bind, Option.bind_some]
  exact congrArg some (tab_congr fun i hi => by rw [tab_getD_lt _ _ hi, tab_getD_lt _ _ hi])

theorem localGate_flip (ht : f.type = .flip) (hn : conf.size ≤ (w f.in1Idx).length) :
    localGate conf id f w = some (tab conf.size fun i =>
      if id = .p0 then 1 - (w f.in1Idx).getD i 0 else -(w f.in1Idx).getD i 0) := by
  simp only [localGate, ht, prefixOf_eq hn, Option.bind_eq_bind, Option.bind_some]
  exact congrArg some (tab_congr fun i hi => by rw [tab_getD_lt _ _ hi])

theorem localGate_removeEdgeData (ht : f.type = .removeEdgeData) (hs : f.size ≤ conf.size)
    (hn : f.size ≤ (w f.in1Idx).length) :
    localGate conf id f w = some (tab conf.size fun i =>
      if i < f.size then (w f.in1Idx).getD i 0 else 0) := by
  simp only [localGate, ht, prefixOf_eq hn, Option.bind_eq_bind, Option.bind_some, if_pos hs]
  refine congrArg some (tab_congr fun i _ => ?_)
  split_ifs with hi
  · rw [tab_getD_lt _ _ hi]
  · rfl

theorem localGate_propagate1 (ht : f.type = .propagate1) (h0 : 0 < conf.nodes)
    (hs : conf.nodes ≤ conf.size) (hn : conf.size ≤ (w f.in1Idx).length) :
    localGate conf id f w = some (tab conf.size fun i =>
      if 0 < i ∧ i < conf.nodes then (w f.in1Idx).getD i 0 - (w f.in1Idx).getD (i - 1) 0
      else (w f.in1Idx).getD i 0) := by
  simp only [localGate, ht, prefixOf_eq hn, Option.bind_eq_bind, Option.bind_some,
    if_pos (And.intro h0 hs)]
  refine congrArg some (tab_congr fun i hi => ?_)
  rw [tab_getD_lt _ _ hi, tab_getD_lt _ _ (by omega)]

theorem localGate_propagate2 (ht : f.type = .propagate2) (hn : conf.size ≤ (w f.in1Idx).length)
    (hm : conf.size ≤ (w f.in2Idx).length) :
    localGate conf id f w = some (tab conf.size fun i =>
      prefixSum (fun j => (w f.in1Idx).getD j 0) (i + 1) - (w f.in2Idx).getD i 0) := by
  simp only [localGate, ht, prefixOf_eq hn, prefixOf_eq hm, Option.bind_eq_bind, Option.bind_some]
  refine congrArg some (tab_congr fun i hi => ?_)
  rw [prefixSum_tab _ (by omega), tab_getD_lt _ _ hi]

theorem localGate_gather1 (ht : f.type = .gather1) (hn : conf.size ≤ (w f.in1Idx).length) :
    localGate conf id f w = some (tab conf.size fun i =>
      prefixSum (fun j => (w f.in1Idx).getD j 0) (i + 1)) := by
  simp only [localGate, ht, prefixOf_eq hn, Option.bind_eq_bind, Option.bind_some]
  exact congrArg some (tab_congr fun i hi => prefixSum_tab _ (by omega))

theorem localGate_gather2 (ht : f.type = .gather2) (hs : conf.nodes ≤ conf.size)
    (hn : conf.nodes ≤ (w f.in1Idx).length) :
    localGate conf id f w = some (tab conf.size fun i =>
      if i < conf.nodes then
        (w f.in1Idx).getD i 0 - if i = 0 then 0 else (w f.in1Idx).getD (i - 1) 0
      else 0) := by
  simp only [localGate, ht, prefixOf_eq hn, Option.bind_eq_bind, Option.bind_some, if_pos hs,
    gather2Sum_eq]
  refine congrArg some (tab_congr fun i _ => ?_)
  split_ifs with hi h0
  · rw [tab_getD_lt _ _ hi]
  · rw [tab_getD_lt _ _ hi, tab_getD_lt _ _ (by omega)]
  · rfl

theorem localGate_deduplicationSub (ht : f.type = .deduplicationSub)
    (hn : conf.size ≤ (w f.in1Idx).length) :
    localGate conf id f w = some (tab (conf.size - 1) fun i =>
      (w f.in1Idx).getD (i + 1) 0 - (w f.in1Idx).getD i 0) := by
  simp only [localGate, ht, prefixOf_eq hn, Option.bind_eq_bind, Option.bind_some]
  refine congrArg some (tab_congr fun i hi => ?_)
  rw [tab_getD_lt _ _ (by omega), tab_getD_lt _ _ (by omega)]

theorem localGate_insert (ht : f.type = .insert) :
    localGate conf id f w = some (0 :: w f.in1Idx) := by
  simp only [localGate, ht]

theorem localGate_columnSums (ht : f.type = .columnSumsToNodes)
    (hl : conf.nodes ≤ f.dataParallel.length) (hs : conf.nodes ≤ conf.size)
    (hn : ∀ r ∈ f.dataParallel.take conf.nodes, conf.nodes ≤ (w r).length) :
    localGate conf id f w = some (tab conf.size fun i => if i < conf.nodes then
      prefixSum (fun j => (w (f.dataParallel.getD i 0)).getD j 0) conf.nodes else 0) := by
  simp only [localGate, ht, if_pos (And.intro hl (And.intro hs hn))]

end evaluation

end GraphMpc
