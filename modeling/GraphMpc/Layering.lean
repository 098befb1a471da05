import GraphMpc.Circuit
import Mathlib.Data.List.Basic
import Mathlib.Data.List.Induction
import Mathlib.Data.List.Perm.Basic
import Mathlib.Order.Lattice
import Mathlib.Tactic.Common

namespace GraphMpc

open Circuit

def Gate.reads (nodes : ℕ) (f : Gate) : List ℕ :=
  match f.type with
  | .input | .setConstVecSIMD | .and | .andSIMD | .xor | .xorSIMD => []
  | .permute | .reversePermute | .add | .addSIMD | .sub | .subSIMD | .mul | .mulSIMD
  | .propagate2 => [f.in1Idx, f.in2Idx]
  | .columnSumsToNodes => f.dataParallel.take nodes
  | _ => [f.in1Idx]

def Gate.delay (f : Gate) : ℕ := if f.interactive then 1 else 0

structure Gate.Wired (nodes k : ℕ) (f : Gate) : Prop where
  gId : f.gId = k
  outIdx : f.outIdx = k
  in1 : f.in1Idx ≤ k - 1
  in2 : f.in2Idx ≤ k - 1
  reads : ∀ r ∈ f.reads nodes, r < k
  first : k = 0 → f.type = .input

def WellFormed (nodes : ℕ) (gates : List Gate) : Prop :=
  ∀ k (f : Gate), gates[k]? = some f → f.Wired nodes k

namespace WellFormed

variable {nodes : ℕ} {gates : List Gate}

theorem nil : WellFormed nodes [] := by
  intro k f h
  simp at h

theorem snoc {f : Gate} (h : WellFormed nodes gates) (hf : f.Wired nodes gates.length) :
    WellFormed nodes (gates ++ [f]) := by
  intro k g hk
  rcases Nat.lt_trichotomy k gates.length with hlt | rfl | hgt
  · rw [List.getElem?_append_left hlt] at hk
    exact h k g hk
  · rw [List.getElem?_append_right le_rfl, Nat.sub_self] at hk
    obtain rfl : f = g := by simpa using hk
    exact hf
  · rw [List.getElem?_eq_none (by simp; omega)] at hk
    cases hk

theorem of_append {gates' : List Gate} (h : WellFormed nodes (gates ++ gates')) :
    WellFormed nodes gates := by
  intro k f hk
  have hlt : k < gates.length := (List.getElem?_eq_some_iff.mp hk).1
  exact h k f (by rwa [List.getElem?_append_left hlt])

theorem last {f : Gate} (h : WellFormed nodes (gates ++ [f])) : f.Wired nodes gates.length :=
  h gates.length f (by simp)

theorem wired_of_mem (h : WellFormed nodes gates) {f : Gate} (hf : f ∈ gates) :
    f.Wired nodes f.outIdx ∧ f.outIdx < gates.length := by
  obtain ⟨k, hk⟩ := List.mem_iff_getElem?.mp hf
  have hw := h k f hk
  rw [hw.outIdx]
  exact ⟨hw, (List.getElem?_eq_some_iff.mp hk).1⟩

theorem getElem?_outIdx (h : WellFormed nodes gates) {f : Gate} (hf : f ∈ gates) :
    gates[f.outIdx]? = some f := by
  obtain ⟨k, hk⟩ := List.mem_iff_getElem?.mp hf
  rw [(h k f hk).outIdx, hk]

theorem eq_of_outIdx (h : WellFormed nodes gates) {f g : Gate} (hf : f ∈ gates) (hg : g ∈ gates)
    (he : f.outIdx = g.outIdx) : f = g := by
  have h1 := h.getElem?_outIdx hf
  rw [he, h.getElem?_outIdx hg] at h1
  exact (Option.some.inj h1).symm

theorem pairwise_outIdx (h : WellFormed nodes gates) :
    gates.Pairwise fun f g => f.outIdx < g.outIdx := by
  rw [List.pairwise_iff_getElem]
  intro i j hi hj hij
  rw [(h i _ (List.getElem?_eq_getElem hi)).outIdx, (h j _ (List.getElem?_eq_getElem hj)).outIdx]
  exact hij

end WellFormed

namespace Circuit

section levels

variable {nodes : ℕ} {gates : List Gate}

theorem levels_snoc (gates : List Gate) (f : Gate) :
    levels (gates ++ [f]) = levelStep (levels gates) f := by
  simp [levels, List.foldl_append]

theorem levelStep_wireLevel {s : Levels} {f : Gate} (hf : f.type ≠ .output) (w : ℕ) :
    (levelStep s f).wireLevel w = if w = f.outIdx then
      max (s.wireLevel f.in1Idx) (s.wireLevel f.in2Idx) + f.delay else s.wireLevel w := by
  simp only [levelStep, if_neg hf, Function.update_apply, Gate.delay]
  by_cases hw : w = f.outIdx
  · rw [if_pos hw, if_pos hw]
    split <;> rfl
  · rw [if_neg hw, if_neg hw]

theorem levelStep_depth_le (s : Levels) (f : Gate) : s.depth ≤ (levelStep s f).depth := by
  simp only [levelStep]
  split
  · exact le_rfl
  · exact le_max_left _ _

theorem wireLevel_eq_zero (h : WellFormed nodes gates) {w : ℕ} (hw : gates.length ≤ w) :
    (levels gates).wireLevel w = 0 := by
  induction gates using List.reverseRecOn with
  | nil => rfl
  | append_singleton gates f ih =>
    have hlen : gates.length < w := by
      rw [List.length_append, List.length_singleton] at hw
      omega
    rw [levels_snoc]
    by_cases ho : f.type = .output
    · rw [levelStep, if_pos ho]
      exact ih h.of_append hlen.le
    · rw [levelStep_wireLevel ho, if_neg (by rw [h.last.outIdx]; omega)]
      exact ih h.of_append hlen.le

theorem functionLevel_eq (h : WellFormed nodes gates) {f : Gate} (hf : f ∈ gates)
    (ho : f.type ≠ .output) :
    (levels gates).functionLevel f.gId = (levels gates).wireLevel f.outIdx ∧
      (levels gates).wireLevel f.outIdx =
        max ((levels gates).wireLevel f.in1Idx) ((levels gates).wireLevel f.in2Idx) + f.delay ∧
      (levels gates).wireLevel f.outIdx ≤ (levels gates).depth := by
  induction gates using List.reverseRecOn with
  | nil => simp at hf
  | append_singleton gates g ih =>
    have hg := h.last
    have hzero := wireLevel_eq_zero h.of_append le_rfl
    rw [levels_snoc]
    rcases List.mem_append.mp hf with hf | hf
    · -- an earlier gate: the new step touches none of its levels
      obtain ⟨hfun, hwire, hdepth⟩ := ih h.of_append hf
      obtain ⟨hw, hlt⟩ := h.of_append.wired_of_mem hf
      by_cases hgo : g.type = .output
      · rw [levelStep, if_pos hgo]
        exact ⟨hfun, hwire, hdepth⟩
      · have hout : f.outIdx ≠ g.outIdx := by rw [hg.outIdx]; omega
        have h1 : f.in1Idx ≠ g.outIdx := by have := hw.in1; rw [hg.outIdx]; omega
        have h2 : f.in2Idx ≠ g.outIdx := by have := hw.in2; rw [hg.outIdx]; omega
        have hid : f.gId ≠ g.gId := by rw [hw.gId, hg.gId]; omega
        simp only [levelStep_wireLevel hgo, if_neg hout, if_neg h1, if_neg h2]
        refine ⟨?_, hwire, hdepth.trans (levelStep_depth_le _ _)⟩
        simp only [levelStep, if_neg hgo, Function.update_of_ne hid]
        exact hfun
    · obtain rfl := List.mem_singleton.mp hf
      have hself : ∀ w, w ≤ gates.length - 1 → (levelStep (levels gates) f).wireLevel w =
          (levels gates).wireLevel w := by
        intro w hw
        rw [levelStep_wireLevel ho]
        split
        · rename_i he
          rw [hg.outIdx] at he
          have hk : gates.length = 0 := by omega
          have h1 : f.in1Idx = 0 := by have := hg.in1; omega
          have h2 : f.in2Idx = 0 := by have := hg.in2; omega
          have hd : f.delay = 0 := by simp [Gate.delay, Gate.interactive, hg.first hk]
          rw [he, h1, h2, hd, hzero, ← hk, hzero, max_self, hk]
        · rfl
      rw [hself _ hg.in1, hself _ hg.in2, levelStep_wireLevel ho, if_pos rfl]
      refine ⟨?_, rfl, ?_⟩
      · simp only [levelStep, if_neg ho, Function.update_self, Gate.delay]
        split <;> rfl
      · simp only [levelStep, if_neg ho, Gate.delay]
        refine le_trans (le_of_eq ?_) (le_max_right _ _)
        split <;> rfl

theorem wireLevel_le_depth (h : WellFormed nodes gates) (w : ℕ) :
    (levels gates).wireLevel w ≤ (levels gates).depth := by
  induction gates using List.reverseRecOn with
  | nil => exact le_rfl
  | append_singleton gates g ih =>
    rw [levels_snoc]
    by_cases hgo : g.type = .output
    · rw [levelStep, if_pos hgo]
      exact ih h.of_append
    · by_cases hw : w = g.outIdx
      · have hmem : g ∈ gates ++ [g] := List.mem_append_right _ (List.mem_singleton_self g)
        rw [← levels_snoc, hw]
        exact (functionLevel_eq h hmem hgo).2.2
      · rw [levelStep_wireLevel hgo, if_neg hw]
        exact (ih h.of_append).trans (levelStep_depth_le _ _)

theorem layer_eq (h : WellFormed nodes gates) {f : Gate} (hf : f ∈ gates)
    (ho : f.type ≠ .output) : (levels gates).layer f = (levels gates).wireLevel f.outIdx := by
  rw [Levels.layer, if_neg ho]
  exact (functionLevel_eq h hf ho).1

theorem layer_le_depth (h : WellFormed nodes gates) {f : Gate} (hf : f ∈ gates) :
    (levels gates).layer f ≤ (levels gates).depth := by
  by_cases ho : f.type = .output
  · rw [Levels.layer, if_pos ho]
  · rw [layer_eq h hf ho]
    exact wireLevel_le_depth h _

theorem reads_cases {f : Gate} (hc : f.type ≠ .columnSumsToNodes) {r : ℕ}
    (hr : r ∈ f.reads nodes) : r = f.in1Idx ∨ r = f.in2Idx := by
  unfold Gate.reads at hr
  split at hr
  all_goals simp_all

theorem wireLevel_read (h : WellFormed nodes gates) {f : Gate} (hf : f ∈ gates)
    (hc : f.type ≠ .columnSumsToNodes) {r : ℕ} (hr : r ∈ f.reads nodes) :
    (levels gates).wireLevel r + f.delay ≤ (levels gates).layer f := by
  by_cases ho : f.type = .output
  · have hd : f.delay = 0 := by simp [Gate.delay, Gate.interactive, ho]
    rw [Levels.layer, if_pos ho, hd, Nat.add_zero]
    exact wireLevel_le_depth h r
  · rw [layer_eq h hf ho, (functionLevel_eq h hf ho).2.1]
    apply Nat.add_le_add_right
    rcases reads_cases hc hr with rfl | rfl
    · exact le_max_left _ _
    · exact le_max_right _ _

end levels

section layers

variable {nodes : ℕ} {gates : List Gate}

def layerGates (gates : List Gate) (l : ℕ) : List Gate :=
  gates.filter fun f => (levels gates).layer f = l

theorem mem_layerGates {f : Gate} {l : ℕ} :
    f ∈ layerGates gates l ↔ f ∈ gates ∧ (levels gates).layer f = l := by
  simp [layerGates]

theorem layersOf_eq (gates : List Gate) :
    layersOf gates = (List.range ((levels gates).depth + 1)).map (layerGates gates) := rfl

theorem mem_layersOf (h : WellFormed nodes gates) {f : Gate} :
    f ∈ (layersOf gates).flatten ↔ f ∈ gates := by
  simp only [layersOf_eq, List.mem_flatten, List.mem_map, List.mem_range]
  constructor
  · rintro ⟨_, ⟨l, -, rfl⟩, hf⟩
    exact (mem_layerGates.mp hf).1
  · intro hf
    exact ⟨_, ⟨_, Nat.lt_succ_of_le (layer_le_depth h hf), rfl⟩, mem_layerGates.mpr ⟨hf, rfl⟩⟩

def Earlier (gates : List Gate) (f g : Gate) : Prop :=
  (levels gates).layer f < (levels gates).layer g ∨
    (levels gates).layer f = (levels gates).layer g ∧ f.outIdx < g.outIdx

theorem pairwise_layerGates (h : WellFormed nodes gates) (l : ℕ) :
    (layerGates gates l).Pairwise fun f g => f.outIdx < g.outIdx :=
  h.pairwise_outIdx.sublist List.filter_sublist

theorem pairwise_layersOf (h : WellFormed nodes gates) :
    (layersOf gates).flatten.Pairwise (Earlier gates) := by
  rw [List.pairwise_flatten, layersOf_eq]
  constructor
  · intro L hL
    obtain ⟨l, -, rfl⟩ := List.mem_map.mp hL
    refine (pairwise_layerGates h l).imp_of_mem fun hf hg hlt => Or.inr ⟨?_, hlt⟩
    rw [(mem_layerGates.mp hf).2, (mem_layerGates.mp hg).2]
  · rw [List.pairwise_map]
    refine List.pairwise_lt_range.imp fun hlt f hf g hg => Or.inl ?_
    rwa [(mem_layerGates.mp hf).2, (mem_layerGates.mp hg).2]

theorem nodup_layersOf (h : WellFormed nodes gates) : (layersOf gates).flatten.Nodup := by
  refine (pairwise_layersOf h).imp fun hlt he => ?_
  subst he
  rcases hlt with hlt | ⟨-, hlt⟩ <;> exact absurd hlt (lt_irrefl _)

theorem layersOf_perm (h : WellFormed nodes gates) : (layersOf gates).flatten.Perm gates := by
  have hn : gates.Nodup := h.pairwise_outIdx.imp fun hlt he => absurd (he ▸ hlt) (lt_irrefl _)
  exact (List.perm_ext_iff_of_nodup (nodup_layersOf h) hn).mpr fun _ => mem_layersOf h

def ColumnsLevelled (nodes : ℕ) (gates : List Gate) : Prop :=
  ∀ f ∈ gates, f.type = .columnSumsToNodes →
    ∀ r ∈ f.reads nodes, (levels gates).wireLevel r ≤ (levels gates).layer f

def Sourced (nodes : ℕ) (gates : List Gate) : Prop :=
  ∀ f ∈ gates, ∀ r ∈ f.reads nodes, ∀ g ∈ gates, g.outIdx = r → g.type ≠ .output

theorem wireLevel_le_layer (h : WellFormed nodes gates) (hc : ColumnsLevelled nodes gates)
    {f : Gate} (hf : f ∈ gates) {r : ℕ} (hr : r ∈ f.reads nodes) :
    (levels gates).wireLevel r + f.delay ≤ (levels gates).layer f := by
  by_cases ht : f.type = .columnSumsToNodes
  · have hd : f.delay = 0 := by simp [Gate.delay, Gate.interactive, ht]
    rw [hd, Nat.add_zero]
    exact hc f hf ht r hr
  · exact wireLevel_read h hf ht hr

theorem source_earlier_of (h : WellFormed nodes gates) (hs : Sourced nodes gates) {f g : Gate}
    (hf : f ∈ gates) (hg : g ∈ gates) (hr : g.outIdx ∈ f.reads nodes)
    (hl : (levels gates).wireLevel g.outIdx + f.delay ≤ (levels gates).layer f) :
    (levels gates).layer g + f.delay ≤ (levels gates).layer f ∧ g.outIdx < f.outIdx := by
  rw [← layer_eq h hg (hs f hf _ hr g hg rfl)] at hl
  exact ⟨hl, (h.wired_of_mem hf).1.reads _ hr⟩

theorem source_earlier (h : WellFormed nodes gates) (hc : ColumnsLevelled nodes gates)
    (hs : Sourced nodes gates) {f g : Gate} (hf : f ∈ gates) (hg : g ∈ gates)
    (hr : g.outIdx ∈ f.reads nodes) : (levels gates).layer g + f.delay ≤ (levels gates).layer f ∧
      g.outIdx < f.outIdx :=
  source_earlier_of h hs hf hg hr (wireLevel_le_layer h hc hf hr)

theorem exists_source (h : WellFormed nodes gates) {f : Gate} (hf : f ∈ gates) {r : ℕ}
    (hr : r ∈ f.reads nodes) : ∃ g ∈ gates, g.outIdx = r := by
  obtain ⟨hw, hlt⟩ := h.wired_of_mem hf
  have hr' : r < gates.length := (hw.reads r hr).trans hlt
  exact ⟨gates[r], List.getElem_mem hr', (h r _ (List.getElem?_eq_getElem hr')).outIdx⟩

end layers

end Circuit

end GraphMpc
