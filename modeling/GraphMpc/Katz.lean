import GraphMpc.GraphSemantics
import GraphMpc.Duplicates
import GraphMpc.Library.Walks

namespace GraphMpc

open Tabulate Circuit DagList GraphMpc.Valuation

namespace DagList

variable {L : DagList} {conf : ProtocolConfig}

def edgeSet (L : DagList) (size : ℕ) (surplus : ℕ → Bool) : Finset ℕ :=
  (Finset.range size).filter fun e => L.isV e = false ∧ surplus e = false

theorem edgesTo_eq (L : DagList) (size : ℕ) (surplus : ℕ → Bool) (id : Ring) :
    L.edgesTo size surplus id = (L.edgeSet size surplus).filter (L.dst · = id) := by
  rw [edgesTo, edgeSet, Finset.filter_filter]
  exact Finset.filter_congr fun e _ => and_assoc.symm

theorem ids_directed (hV : L.Valid conf) (reverse : Bool) :
    (L.directed reverse).ids conf.size = L.ids conf.size := by
  cases reverse with
  | false => rfl
  | true =>
    simp only [ids, directed, reversed, if_true]
    refine congrArg (List.mergeSort · _) (List.map_congr_left fun v hv => ?_)
    obtain ⟨hlt, hvv⟩ := List.mem_filter.mp hv
    exact hV.loop v (List.mem_range.mp hlt) hvv

theorem output_directed (hV : L.Valid conf) (inInputOrder reverse : Bool) (d : Ring → Ring) :
    (L.directed reverse).output conf inInputOrder d = L.output conf inInputOrder d := by
  rw [output, output, ids_directed hV]
  refine if_congr Iff.rfl (tab_congr fun e he => ?_) rfl
  exact Program.data_directed hV d reverse he

theorem mem_ids {size : ℕ} {id : Ring} :
    id ∈ L.ids size ↔ ∃ v < size, L.isV v = true ∧ L.src v = id := by
  rw [ids, (List.mergeSort_perm _ _).mem_iff]
  simp [and_assoc]

theorem output_congr (inInputOrder : Bool) {d d' : Ring → Ring}
    (h : ∀ v < conf.size, L.isV v = true → d (L.src v) = d' (L.src v)) :
    L.output conf inInputOrder d = L.output conf inInputOrder d' := by
  rw [output, output]
  refine if_congr Iff.rfl (tab_congr fun e he => ?_) (congrArg (· ++ _) ?_)
  · simp only [data]
    split
    · rename_i hv
      exact h e he hv
    · rfl
  · refine List.map_congr_left fun id hid => ?_
    obtain ⟨v, hv, hvv, rfl⟩ := mem_ids.mp hid
    exact h v hv hvv

def walksFrom (L : DagList) (size : ℕ) (surplus : ℕ → Bool) (k : ℕ) (id : Ring) :
    Finset (List ℕ) :=
  Walks.walks (L.edgeSet size surplus) L.src L.dst k id

def simpleWalks (L : DagList) (size k : ℕ) (id : Ring) : Finset (List (Ring × Ring)) :=
  Walks.walks (L.pairs size) Prod.fst Prod.snd k id

theorem card_simpleWalks (hV : L.Valid conf) (k : ℕ) (id : Ring) :
    (L.simpleWalks conf.size k id).card =
      (L.walksFrom conf.size (L.reversed.surplus conf true) k id).card := by
  have hmem : ∀ e, e ∈ L.edgeSet conf.size (L.reversed.surplus conf true) ↔
      e < conf.size ∧ L.isV e = false ∧ L.surplus conf true e = false := fun e => by
    simp only [edgeSet, Finset.mem_filter, Finset.mem_range]
    exact and_congr_right fun he => by rw [surplus_reversed hV he]
  have hpairs : L.pairs conf.size =
      (L.edgeSet conf.size (L.reversed.surplus conf true)).image fun e => (L.src e, L.dst e) := by
    ext p
    rw [Finset.mem_image]
    constructor
    · intro hp
      obtain ⟨e, ⟨he, hv, hs, hep⟩, -⟩ := hV.pairs_kept hp
      exact ⟨e, (hmem e).mpr ⟨he, hv, hs⟩, hep⟩
    · rintro ⟨e, he, rfl⟩
      obtain ⟨he, hv, -⟩ := (hmem e).mp he
      exact Finset.mem_image_of_mem _ (Finset.mem_filter.mpr ⟨Finset.mem_range.mpr he, hv⟩)
  have hinj : Set.InjOn (fun e => (L.src e, L.dst e))
      (L.edgeSet conf.size (L.reversed.surplus conf true)) := by
    intro e he e' he' heq
    obtain ⟨he, hv, hs⟩ := (hmem e).mp he
    obtain ⟨he', hv', hs'⟩ := (hmem e').mp he'
    have hp : (L.src e, L.dst e) ∈ L.pairs conf.size :=
      Finset.mem_image_of_mem _ (Finset.mem_filter.mpr ⟨Finset.mem_range.mpr he, hv⟩)
    exact (hV.pairs_kept hp).unique ⟨he, hv, hs, rfl⟩ ⟨he', hv', hs', heq.symm⟩
  rw [simpleWalks, hpairs]
  exact Walks.card_walks_image hinj (fun _ _ => rfl) (fun _ _ => rfl) k id

end DagList

section katz

variable {L : DagList} {conf : ProtocolConfig} {size : ℕ} {surplus : ℕ → Bool} {weights : Vec}

def katzScore (L : DagList) (size : ℕ) (surplus : ℕ → Bool) (weights : Vec) (id : Ring) : Ring :=
  ∑ k ∈ Finset.range weights.length,
    weights.getD k 0 * ((L.walksFrom size surplus (k + 1) id).card : Ring)

theorem katz_round (s : Ring → Ring) (i : ℕ) (id : Ring) :
    (katz conf weights).round L size (L.edgesTo size surplus) 0 s i id =
      ∑ e ∈ L.edgesTo size surplus id, (s (L.src e) + weights.getD (weights.length - 1 - i) 0) := by
  simp [Program.round, katz, Body.onNode, Body.arg, Body.single, Op.onNode]

theorem katz_initial (d : Ring → Ring) (id : Ring) :
    (katz conf weights).initial L size 0 d id = 0 := by
  simp [Program.initial, katz, Body.onNode, Body.single, Op.onNode]

theorem katz_rounds (d : Ring → Ring) {i : ℕ} (hi : i ≤ weights.length) (id : Ring) :
    (List.range i).foldl
        ((katz conf weights).round L.reversed size (L.reversed.edgesTo size surplus) 0)
        ((katz conf weights).initial L.reversed size 0 d) id =
      ∑ k ∈ Finset.range i, weights.getD (weights.length - i + k) 0 *
        ((L.walksFrom size surplus (k + 1) id).card : Ring) := by
  induction i generalizing id with
  | zero => exact katz_initial d id
  | succ i ih =>
    have hedges : L.reversed.edgesTo size surplus id =
        (L.edgeSet size surplus).filter (L.src · = id) := L.reversed.edgesTo_eq ..
    have hcard : ∀ k, ((L.walksFrom size surplus (k + 1) id).card : Ring) =
        ∑ e ∈ L.reversed.edgesTo size surplus id,
          ((L.walksFrom size surplus k (L.dst e)).card : Ring) := fun k => by
      rw [hedges, DagList.walksFrom, Walks.card_walks_succ, Nat.cast_sum]
      rfl
    rw [List.range_succ, List.foldl_append, List.foldl_cons, List.foldl_nil, katz_round,
      Finset.sum_range_succ', Finset.sum_add_distrib]
    congr 1
    · have hstate : ∀ e, (List.range i).foldl
          ((katz conf weights).round L.reversed size (L.reversed.edgesTo size surplus) 0)
          ((katz conf weights).initial L.reversed size 0 d) (L.reversed.src e) = _ :=
        fun e => ih (by omega) (L.dst e)
      simp only [hstate]
      rw [Finset.sum_comm]
      refine Finset.sum_congr rfl fun k _ => ?_
      rw [hcard (k + 1), Finset.mul_sum]
      have hindex : weights.length - (i + 1) + (k + 1) = weights.length - i + k := by omega
      rw [hindex]
    · have hone : ∀ u, (L.walksFrom size surplus 0 u).card = 1 := fun _ => rfl
      have hindex : weights.length - (i + 1) + 0 = weights.length - 1 - i := by omega
      rw [hcard 0, hindex, Finset.mul_sum]
      simp only [hone, Nat.cast_one, mul_one]

theorem katz_passed (d : Ring → Ring) (id : Ring) :
    (katz conf weights).result L.reversed size (L.reversed.edgesTo size surplus) 0 weights.length d
      id = katzScore L size surplus weights id := by
  have h := @katz_rounds L conf size surplus weights d weights.length le_rfl id
  rw [Nat.sub_self] at h
  simp only [zero_add] at h
  exact h

theorem katz_output {dedup inInputOrder : Bool} {g0 g1 : Graph} (hw : weights.length = conf.depth)
    (h0 : 0 < conf.size) (hV : L.Valid conf) (hC : L.Closed conf.size)
    (hk : ∀ v < conf.size, L.isV v = true → L.reversed.surplus conf dedup v = false) (g : Streams)
    {x : ℕ → Ring} (hin : SharedList conf g0 g1 (L.listing conf.bits) x) :
    ∃ r, secureRun conf (build (katz conf weights).algorithm
        (start conf 1 inInputOrder true dedup)).2 g0 g1 g = some r ∧
      r.output = L.output conf inInputOrder
        (katzScore L conf.size (L.reversed.surplus conf dedup) weights) := by
  have harith := Program.katz_arithmetic conf weights
  have hC' := hC.directed hV true
  have hk' : ∀ v < conf.size, L.isV v = true → (L.directed true).surplus conf dedup v = false := hk
  have he := harith.evaluable hV.nodes_le (fun _ => rfl) rfl 1
  have hstart : (katz conf weights).Starts L conf.size x fun _ => 0 := Or.inr fun _ => rfl
  obtain ⟨r, hr, hout⟩ := harith.output_eq hV.nodes_le (hV.nodes_pos hC.sourced h0) he hV hk'
    hC'.sourced (fun v _ _ => hC'.delivered_eq _ _) g hin hstart fun _ => rfl
  refine ⟨r, hr, hout.trans ?_⟩
  simp only [max_self, List.range_one, List.map_cons, List.map_nil, List.flatten_cons,
    List.flatten_nil, List.append_nil]
  rw [DagList.output_directed hV, ← hw]
  exact DagList.output_congr _ fun v _ _ => katz_passed _ _

end katz

namespace Shipped

variable {L : DagList} {conf : ProtocolConfig} {inInputOrder : Bool} {circ : Circuit}
  {g0 g1 : Graph} {weights : Vec}

theorem weights_length (h : (piM weights).circuit conf inInputOrder = .ok circ ∨
    (piK weights).circuit conf inInputOrder = .ok circ) : weights.length = conf.depth := by
  by_contra hne
  rcases h with h | h <;> simp [circuit, create, hne, bind, Except.bind] at h

theorem piM_scores (hc : (piM weights).circuit conf inInputOrder = .ok circ) (h0 : 0 < conf.size)
    (hV : L.Valid conf) (hC : L.Closed conf.size) (g : Streams) {x : ℕ → Ring}
    (hin : SharedList conf g0 g1 (L.listing conf.bits) x) :
    ∃ r, secureRun conf circ g0 g1 g = some r ∧ r.output = L.output conf inInputOrder fun id =>
      ∑ k ∈ Finset.range conf.depth, weights.getD k 0 *
        ((L.walksFrom conf.size (fun _ => false) (k + 1) id).card : Ring) := by
  have hw := weights_length (Or.inl hc)
  have hk : ∀ v < conf.size, L.isV v = true → L.reversed.surplus conf false v = false :=
    fun _ _ _ => rfl
  obtain ⟨r, hr, hout⟩ := katz_output hw h0 hV hC hk g hin
  refine ⟨r, ?_, ?_⟩
  · rw [circuit_eq hc]
    exact hr
  · rw [hout, ← hw]
    rfl

def parallel : DagList where
  isV e := e < 2
  src e := if e = 1 then 1 else 0
  dst e := if e = 0 then 0 else 1

theorem parallelConfig_int : 4 < 2 ^ 31 := by decide

def parallelConfig : ProtocolConfig := ⟨4, 2, 2, 1, parallelConfig_int⟩

theorem parallel_valid : parallel.Valid parallelConfig where
  nodes := by decide
  loop := by decide
  src_lt := by decide
  dst_lt := by decide
  distinct := by decide

theorem parallel_closed : parallel.Closed parallelConfig.size := by
  unfold DagList.Closed
  decide

def scoreCircuit (dedup : Bool) : Circuit :=
  (build (katz parallelConfig [3, 5]).algorithm (start parallelConfig 1 false true dedup)).2

theorem piM_circuit_eq : (piM [3, 5]).circuit parallelConfig false = .ok (scoreCircuit false) := rfl

theorem piM_scores_parallel : ∃ r, secureRun parallelConfig (scoreCircuit false)
    (parallel.graph parallelConfig fun _ => 7) (blank parallelConfig) countingStreams = some r ∧
      r.output = parallel.output parallelConfig false fun id =>
        ∑ k ∈ Finset.range parallelConfig.depth, ([3, 5] : Vec).getD k 0 *
          ((parallel.walksFrom parallelConfig.size (fun _ => false) (k + 1) id).card : Ring) :=
  piM_scores piM_circuit_eq (by decide) parallel_valid parallel_closed countingStreams
    (parallel.shared_graph _ _)

theorem piK_scores (hc : (piK weights).circuit conf inInputOrder = .ok circ) (h0 : 0 < conf.size)
    (hV : L.Valid conf) (hC : L.Closed conf.size) (hl : L.LoopFree conf.size) (g : Streams)
    {x : ℕ → Ring} (hin : SharedList conf g0 g1 (L.listing conf.bits) x) :
    ∃ r, secureRun conf circ g0 g1 g = some r ∧ r.output = L.output conf inInputOrder fun id =>
      ∑ k ∈ Finset.range conf.depth, weights.getD k 0 *
        ((L.simpleWalks conf.size (k + 1) id).card : Ring) := by
  have hw := weights_length (Or.inr hc)
  have hk : ∀ v < conf.size, L.isV v = true → L.reversed.surplus conf true v = false :=
    fun v hv hvv => hV.reversed.kept hl.reversed hv hvv
  obtain ⟨r, hr, hout⟩ := katz_output hw h0 hV hC hk g hin
  refine ⟨r, ?_, ?_⟩
  · rw [circuit_eq hc]
    exact hr
  · rw [hout, ← hw]
    simp only [DagList.card_simpleWalks hV]
    rfl

theorem parallel_loopFree : parallel.LoopFree parallelConfig.size := by
  unfold DagList.LoopFree
  decide

theorem piK_circuit_eq : (piK [3, 5]).circuit parallelConfig false = .ok (scoreCircuit true) := rfl

theorem piK_scores_parallel : ∃ r, secureRun parallelConfig (scoreCircuit true)
    (parallel.graph parallelConfig fun _ => 7) (blank parallelConfig) countingStreams = some r ∧
      r.output = parallel.output parallelConfig false fun id =>
        ∑ k ∈ Finset.range parallelConfig.depth, ([3, 5] : Vec).getD k 0 *
          ((parallel.simpleWalks parallelConfig.size (k + 1) id).card : Ring) :=
  piK_scores piK_circuit_eq (by decide) parallel_valid parallel_closed parallel_loopFree
    countingStreams (parallel.shared_graph _ _)

end Shipped

end GraphMpc
