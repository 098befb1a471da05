import GraphMpc.Results
import GraphMpc.Simulation

namespace GraphMpc

open Tabulate Permutation Circuit Online

section evaluation

variable {conf : ProtocolConfig} {gates : List Gate} {perm : ℕ → Equiv.Perm ℕ} {inp : ℕ → Vec}

def kindOf (gates : List Gate) (w : ℕ) : Kind :=
  ((gates.find? (·.outIdx = w)).map Gate.kind).getD .add

theorem kindOf_outIdx {nodes : ℕ} (h : WellFormed nodes gates) {f : Gate} (hf : f ∈ gates) :
    kindOf gates f.outIdx = f.kind := by
  rw [kindOf]
  cases hfind : gates.find? (·.outIdx = f.outIdx) with
  | none =>
    have := List.find?_eq_none.mp hfind f hf
    simp at this
  | some g =>
    have hg : g.outIdx = f.outIdx := by simpa using List.find?_some hfind
    rw [h.eq_of_outIdx (List.mem_of_find?_eq_some hfind) hf hg]
    rfl

def evaluation (gates : List Gate) (inp : ℕ → Vec) (hk : ∀ idx, Keeps conf.size (perm idx))
    (h : WellFormed conf.nodes gates) (hc : ColumnsLevelled conf.nodes gates)
    (hs : Sourced conf.nodes gates) : Valuation conf where
  gates := gates
  perm := perm
  inp := inp
  val := (Clear.run conf (fun idx => ofPerm conf.size (perm idx)) inp
    (layersOf gates).flatten).wires
  kd := kindOf gates
  keeps := hk
  solves _ hf _ := Clear.run_solves conf _ _ h hc hs hf
  kind _ hf _ := kindOf_outIdx h hf

theorem total_eq_uses {nodes : ℕ} (h : WellFormed nodes gates) (w : ℕ) :
    total (layersOf gates) w = uses gates w :=
  ((layersOf_perm h).map _).sum_eq

theorem outputs_layersOf (gates : List Gate) :
    (layersOf gates).flatten.filter (·.type = .output) = gates.filter (·.type = .output) := by
  have hlayer : ∀ f ∈ gates, f.type = .output → (levels gates).layer f = (levels gates).depth := by
    intro f _ ho
    rw [Levels.layer, if_pos ho]
  have hnone : ∀ l < (levels gates).depth,
      (layerGates gates l).filter (·.type = .output) = [] := by
    intro l hl
    rw [List.filter_eq_nil_iff]
    intro f hf ho
    obtain ⟨hmem, hfl⟩ := mem_layerGates.mp hf
    rw [hlayer f hmem (by simpa using ho)] at hfl
    omega
  have hrest : ∀ n ≤ (levels gates).depth,
      ((List.range n).map (layerGates gates)).flatten.filter (·.type = .output) = [] := by
    intro n hn
    rw [List.filter_flatten, List.map_map, List.flatten_eq_nil_iff]
    intro L hL
    obtain ⟨l, hl, rfl⟩ := List.mem_map.mp hL
    exact hnone l ((List.mem_range.mp hl).trans_le hn)
  rw [layersOf_eq, List.range_succ, List.map_append, List.flatten_append, List.filter_append,
    hrest _ le_rfl, List.nil_append, List.map_singleton, List.flatten_singleton, layerGates,
    List.filter_filter]
  refine List.filter_congr fun f hf => ?_
  by_cases ho : f.type = .output
  · simp [ho, hlayer f hf ho]
  · simp [ho]

end evaluation

structure Sound {conf : ProtocolConfig} (V : Valuation conf) : Prop where
  wellFormed : WellFormed conf.nodes V.gates
  sourced : Sourced conf.nodes V.gates
  levelled : ColumnsLevelled conf.nodes V.gates
  handled : ∀ f ∈ V.gates, f.Handled
  good : ∀ f ∈ V.gates, V.Good f
  columns : ∀ f ∈ V.gates, f.type = .columnSumsToNodes → ∀ r ∈ f.reads conf.nodes,
    uses V.gates r = 0 ∨ r ∈ f.counted
  shuffled : ∀ f ∈ V.gates, f.type = .unshuffle → ∃ g ∈ V.gates, g.type = .shuffle ∧
    g.shuffleIdx = f.shuffleIdx ∧ (levels V.gates).layer g < (levels V.gates).layer f

structure Evaluates {conf : ProtocolConfig} (V : Valuation conf) : Prop extends Sound V where
  exclusive : ∀ f ∈ V.gates, f.type = .eqz → f.layer = 0 → uses V.gates f.in1Idx = 1

namespace Evaluates

variable {conf : ProtocolConfig} {V : Valuation conf}

def outputs (V : Valuation conf) (order : List Gate) : Vec :=
  (order.filter (·.type = .output)).flatMap fun f => (V.val f.in1Idx).take conf.size

def plan (h : Evaluates V) : Plan conf where
  gates := V.gates
  perm := V.perm
  inp := V.inp
  kd := V.kd
  holds w x := x = V.val w
  perm_keeps := V.keeps
  wellFormed := h.wellFormed
  sourced := h.sourced
  levelled := h.levelled
  handled := h.handled
  ready f hf v hv := by
    refine (h.good f hf).of_lengths (fun r hr => congrArg List.length (hv r hr)) (fun ht => ?_)
      fun ht => ?_ <;> refine hv _ ?_ <;> rcases ht with ht | ht <;> simp [Gate.reads, ht]
  solves f hf ho v hv := by
    rw [V.solves f hf ho]
    exact Clear.clearGate_congr conf _ _ f hv
  negated f hf ht hl :=
    Or.inl (by rw [total_eq_uses h.wellFormed, h.exclusive f hf ht hl])
  columns f hf ht r hr := by
    rw [total_eq_uses h.wellFormed]
    exact h.columns f hf ht r hr
  shuffled := h.shuffled

theorem outputs_eq (h : Evaluates V) {order : List Gate} {out : Vec}
    (ho : h.plan.Outputs order out) : out = outputs V order := by
  obtain ⟨y, hy, rfl⟩ := ho
  rw [outputs, List.flatMap_def, List.flatMap_def]
  refine congrArg List.flatten (List.map_congr_left fun f hf => ?_)
  obtain ⟨hmem, ht⟩ := List.mem_filter.mp hf
  rw [hy f hmem (by simpa using ht)]

theorem plan_outputs (hlen : ∀ v ∈ outputsOf V V.gates, v.length = conf.size) :
    outputs V (layersOf V.gates).flatten = (outputsOf V V.gates).flatten := by
  rw [outputs, outputs_layersOf, outputsOf, List.flatMap_def]
  refine congrArg List.flatten (List.map_congr_left fun f hf => ?_)
  exact List.take_of_length_le (hlen _ (List.mem_map_of_mem hf)).le

theorem related (h : Evaluates V) {w0 w1 : ℕ → Vec} {w : ℕ} (hw : h.plan.Shared w0 w1 w) :
    WiresRel V.kd w0 w1 V.val w := by
  obtain ⟨x, rfl, hrel⟩ := hw
  exact hrel

end Evaluates

end GraphMpc
