import GraphMpc.Deliveries
import GraphMpc.Katz

namespace GraphMpc

open Tabulate Circuit DagList GraphMpc.Valuation

namespace DagList

variable {L : DagList} {conf : ProtocolConfig} {size : ℕ} {start : Ring → Bool}

def edges (L : DagList) (size : ℕ) : Finset ℕ := (Finset.range size).filter (L.isV · = false)

-- a node with the initial state 1 has a directed path of at most d edges to the id
def Reaches (L : DagList) (size d : ℕ) (start : Ring → Bool) (id : Ring) : Prop :=
  ∃ u < size, L.isV u = true ∧ start (L.src u) = true ∧ ∃ w : List ℕ, w.length ≤ d ∧
    Walks.IsWalk (L.edges size) L.src L.dst (L.src u) w ∧ Walks.finish L.dst (L.src u) w = id

-- the walks of k edges to an id, from its end, that begin at nodes with the initial state 1
def walksTo (L : DagList) (size : ℕ) (start : Ring → Bool) (k : ℕ) (id : Ring) :
    Finset (List ℕ) :=
  (Walks.walks (L.edges size) L.dst L.src k id).filter fun w => start (Walks.finish L.src id w) = true

-- the walks of d steps to an id, every step along an edge or at rest
def restingWalks (L : DagList) (size : ℕ) (start : Ring → Bool) (d : ℕ) (id : Ring) : ℕ :=
  ∑ k ∈ Finset.range (d + 1), d.choose k * (L.walksTo size start k id).card

def flag (start : Ring → Bool) (id : Ring) : ℕ := (start id).toNat

theorem restingWalks_eq (d : ℕ) (id : Ring) : L.restingWalks size start d id =
    Walks.lazyWeight (L.edges size) L.dst L.src (flag start) d id := by
  rw [Walks.lazyWeight_eq, restingWalks]
  refine Finset.sum_congr rfl fun k _ => congrArg _ ?_
  rw [Walks.weight, walksTo, Finset.card_filter]
  refine Finset.sum_congr rfl fun w _ => ?_
  rw [flag]
  cases start (Walks.finish L.src id w) <;> rfl

theorem restingWalks_pos (hC : L.Closed size) {v : ℕ} (hv : v < size) (hvv : L.isV v = true)
    (d : ℕ) : 0 < L.restingWalks size start d (L.src v) ↔ L.Reaches size d start (L.src v) := by
  rw [restingWalks_eq, Walks.lazyWeight_pos, Reaches]
  constructor
  · rintro ⟨w, hlen, hw, hpos⟩
    have hnode : ∀ (id : Ring) (w : List ℕ), Walks.IsWalk (L.edges size) L.dst L.src id w →
        (∃ u < size, L.isV u = true ∧ L.src u = id) →
          ∃ u < size, L.isV u = true ∧ L.src u = Walks.finish L.src id w := by
      intro id w
      induction w generalizing id with
      | nil => exact fun _ h => h
      | cons e w ih =>
        rintro ⟨he, -, hw⟩ -
        obtain ⟨he, -⟩ := Finset.mem_filter.mp he
        exact ih _ hw (hC e (Finset.mem_range.mp he)).1
    obtain ⟨u, hu, hvu, heq⟩ := hnode _ w hw ⟨v, hv, hvv, rfl⟩
    obtain ⟨h1, h2⟩ := hw.reverse
    rw [← heq] at h1 h2 hpos
    refine ⟨u, hu, hvu, ?_, w.reverse, by simpa using hlen, h1, h2⟩
    cases hs : start (L.src u) with
    | true => rfl
    | false =>
      rw [flag, hs] at hpos
      cases hpos
  · rintro ⟨u, hu, hvu, hs, w, hlen, hw, hfin⟩
    obtain ⟨h1, h2⟩ := hw.reverse
    rw [hfin] at h1 h2
    exact ⟨w.reverse, by simpa using hlen, h1, by simp [h2, flag, hs]⟩

end DagList

section search

variable {L : DagList} {conf : ProtocolConfig} {size : ℕ} {start : Ring → Bool}

def indicator (start : Ring → Bool) (id : Ring) : Ring := if start id then 1 else 0

theorem edgesTo_edges (L : DagList) (size : ℕ) (id : Ring) :
    L.edgesTo size (fun _ => false) id = (L.edges size).filter (L.dst · = id) := by
  rw [edgesTo, edges, Finset.filter_filter]
  exact Finset.filter_congr fun e _ => by simp

theorem sum_rounds {p : Program} {column : ℕ}
    (hround : ∀ s i id, p.round L size (L.edgesTo size fun _ => false) column s i id =
      s id + ∑ e ∈ L.edgesTo size (fun _ => false) id, s (L.src e))
    {s : Ring → Ring} {c : Ring → ℕ} (hs : ∀ id, s id = (c id : Ring)) (d : ℕ) (id : Ring) :
    (List.range d).foldl (p.round L size (L.edgesTo size fun _ => false) column) s id =
      (Walks.lazyWeight (L.edges size) L.dst L.src c d id : Ring) := by
  induction d generalizing id with
  | zero => exact hs id
  | succ d ih =>
    rw [List.range_succ, List.foldl_append, List.foldl_cons, List.foldl_nil, hround, ih,
      Walks.lazyWeight, Nat.cast_add, Nat.cast_sum, edgesTo_edges]
    exact congrArg _ (Finset.sum_congr rfl fun e _ => ih (L.src e))

theorem bfs_round (s : Ring → Ring) (i : ℕ) (id : Ring) :
    bfs.round L size (L.edgesTo size fun _ => false) 0 s i id =
      s id + ∑ e ∈ L.edgesTo size (fun _ => false) id, s (L.src e) := by
  simp [Program.round, bfs, Body.onNode, Body.arg, Body.single, Op.onNode]

theorem bfs_result (d : ℕ) (id : Ring) :
    bfs.result L size (L.edgesTo size fun _ => false) 0 d (indicator start) id =
      if (L.restingWalks size start d id : Ring) = 0 then 0 else 1 := by
  have hs : ∀ id, bfs.initial L size 0 (indicator start) id = (flag start id : Ring) := by
    intro id
    simp only [Program.initial, bfs, indicator, flag]
    cases start id <;> rfl
  rw [restingWalks_eq, ← sum_rounds bfs_round hs d id]
  rfl

theorem natCast_eq_zero (n : ℕ) : (n : Ring) = 0 ↔ 2 ^ 32 ∣ n := by
  rw [BitVec.natCast_eq_ofNat, ← BitVec.toNat_inj, BitVec.toNat_ofNat, Nat.dvd_iff_mod_eq_zero]
  rfl

def Searches (L : DagList) (conf : ProtocolConfig) (inInputOrder : Bool) (start : Ring → Bool)
    (out : Vec) : Prop :=
  ∀ v < conf.size, L.isV v = true →
    (L.Reaches conf.size conf.depth start (L.src v) →
      out.getD (L.position conf.size inInputOrder v) 0 = 1) ∧
    (¬ L.Reaches conf.size conf.depth start (L.src v) →
      out.getD (L.position conf.size inInputOrder v) 0 = 0)

end search

namespace Shipped

variable {L : DagList} {conf : ProtocolConfig} {inInputOrder : Bool} {circ : Circuit}
  {g0 g1 : Graph} {start : Ring → Bool}

theorem bfs_arithmetic (nodes : ℕ) : GraphMpc.bfs.Arithmetic nodes where
  initNodes _ _ h := by cases h
  prepare _ _ := Deliveries.arg_arithmetic _
  apply _ _ := by simp [GraphMpc.bfs, Body.Arithmetic, Body.single, Op.Arithmetic]

theorem bfs_output (hc : bfs.circuit conf inInputOrder = .ok circ) (h0 : 0 < conf.size)
    (hV : L.Valid conf) (hC : L.Closed conf.size) (g : Streams)
    (hin : SharedList conf g0 g1 (L.listing conf.bits) (L.data (indicator start))) :
    ∃ r, secureRun conf circ g0 g1 g = some r ∧ r.output = L.output conf inInputOrder fun id =>
      if (L.restingWalks conf.size start conf.depth id : Ring) = 0 then 0 else 1 := by
  have hk : ∀ v < conf.size, L.isV v = true → (L.directed false).surplus conf false v = false :=
    fun _ _ _ => rfl
  have hE : Program.Summed (L.directed false) conf.size ((L.directed false).surplus conf false)
      ((L.directed false).edgesTo conf.size fun _ => false) :=
    fun _ _ _ => hC.delivered_eq _ _
  obtain ⟨r, hr, hout⟩ := (bfs_arithmetic conf.nodes).output_eq hV.nodes_le
    (hV.nodes_pos hC.sourced h0) (evaluable hV.nodes_le bfs) hV hk hC.sourced hE g hin
    (Or.inl fun _ _ => rfl) fun _ => rfl
  refine ⟨r, ?_, hout.trans ?_⟩
  · rw [circuit_eq hc]
    exact hr
  · rw [columns, max_self, List.range_one, List.map_cons, List.map_nil, List.flatten_cons,
      List.flatten_nil, List.append_nil]
    exact DagList.output_congr _ fun v _ _ => bfs_result _ _

theorem bfs_searches_iff (hc : bfs.circuit conf inInputOrder = .ok circ) (h0 : 0 < conf.size)
    (hV : L.Valid conf) (hC : L.Closed conf.size) (g : Streams)
    (hin : SharedList conf g0 g1 (L.listing conf.bits) (L.data (indicator start))) :
    ∃ r, secureRun conf circ g0 g1 g = some r ∧
      (Searches L conf inInputOrder start r.output ↔ ∀ v < conf.size, L.isV v = true →
        2 ^ 32 ∣ L.restingWalks conf.size start conf.depth (L.src v) →
          L.restingWalks conf.size start conf.depth (L.src v) = 0) := by
  obtain ⟨r, hr, hout⟩ := bfs_output hc h0 hV hC g hin
  refine ⟨r, hr, forall₂_congr fun v hv => forall_congr' fun hvv => ?_⟩
  rw [hout, hV.output_getD inInputOrder _ hv hvv, ← natCast_eq_zero,
    ← DagList.restingWalks_pos hC hv hvv]
  generalize L.restingWalks conf.size start conf.depth (L.src v) = n
  by_cases hz : (n : Ring) = 0
  · rw [if_pos hz]
    constructor
    · intro h _
      by_contra hn
      exact absurd (h.1 (Nat.pos_of_ne_zero hn)) (by decide)
    · intro h
      simp [h hz]
  · rw [if_neg hz]
    have hpos : 0 < n := Nat.pos_of_ne_zero fun h => hz (by rw [h]; rfl)
    constructor
    · exact fun _ h => absurd h hz
    · exact fun _ => ⟨fun _ => rfl, fun h => absurd hpos h⟩

def loopConfig : ProtocolConfig := ⟨2, 1, 32, 1, pairConfig_int⟩

theorem loop_valid_deep : Program.loop.Valid loopConfig where
  nodes := by decide
  loop := by decide
  src_lt := by decide
  dst_lt := by decide
  distinct := by decide

theorem bfs_circuit (conf : ProtocolConfig) : bfs.circuit conf false =
    .ok (build (bfs.program conf).algorithm (Circuit.start conf 1 false false false)).2 := rfl

def loopCircuit : Circuit :=
  (build (bfs.program loopConfig).algorithm (Circuit.start loopConfig 1 false false false)).2

theorem loop_restingWalks (d : ℕ) :
    Program.loop.restingWalks loopConfig.size (fun _ => true) d 0 = 2 ^ d := by
  have hedges : (Program.loop.edges loopConfig.size).filter (Program.loop.dst · = 0) = {1} := by
    decide
  rw [DagList.restingWalks_eq]
  induction d with
  | zero => rfl
  | succ d ih =>
    rw [Walks.lazyWeight, hedges, Finset.sum_singleton]
    have hdst : Program.loop.src 1 = 0 := rfl
    rw [hdst, ih, Nat.pow_succ]
    omega

theorem loop_reaches (d : ℕ) : Program.loop.Reaches loopConfig.size d (fun _ => true) 0 := by
  refine (DagList.restingWalks_pos (v := 0) Program.loop_closed (by decide) rfl d).mp ?_
  have h := loop_restingWalks d
  exact h ▸ Nat.two_pow_pos d

theorem bfs_misses : ∃ r, secureRun loopConfig loopCircuit
    (Program.loop.graph loopConfig (indicator fun _ => true)) (blank loopConfig) countingStreams =
      some r ∧ ¬ Searches Program.loop loopConfig false (fun _ => true) r.output := by
  obtain ⟨r, hr, hout⟩ := bfs_output (bfs_circuit loopConfig) (by decide) loop_valid_deep
    Program.loop_closed countingStreams
    (Program.loop.shared_graph loopConfig (indicator fun _ => true))
  refine ⟨r, hr, fun h => ?_⟩
  have hone := (h 0 (by decide) rfl).1 (loop_reaches _)
  have hcount : Program.loop.restingWalks loopConfig.size (fun _ => true) loopConfig.depth 0 =
      2 ^ 32 := loop_restingWalks 32
  have hzero := loop_valid_deep.output_getD false (fun id =>
    if (Program.loop.restingWalks loopConfig.size (fun _ => true) loopConfig.depth id : Ring) = 0
      then 0 else 1) (v := 0) (by decide) rfl
  rw [hout, hzero] at hone
  have hif : ((Program.loop.restingWalks loopConfig.size (fun _ => true) loopConfig.depth
      (Program.loop.src 0) : ℕ) : Ring) = 0 := (natCast_eq_zero _).mpr ⟨1, hcount⟩
  rw [if_pos hif] at hone
  exact absurd hone (by decide)

theorem bfs_searches_iff_loop : ∃ r, secureRun loopConfig loopCircuit
    (Program.loop.graph loopConfig (indicator fun _ => true)) (blank loopConfig) countingStreams =
      some r ∧ (Searches Program.loop loopConfig false (fun _ => true) r.output ↔
        ∀ v < loopConfig.size, Program.loop.isV v = true →
          2 ^ 32 ∣ Program.loop.restingWalks loopConfig.size (fun _ => true) loopConfig.depth
            (Program.loop.src v) → Program.loop.restingWalks loopConfig.size (fun _ => true)
              loopConfig.depth (Program.loop.src v) = 0) :=
  bfs_searches_iff (bfs_circuit loopConfig) (by decide) loop_valid_deep Program.loop_closed
    countingStreams (Program.loop.shared_graph loopConfig (indicator fun _ => true))

end Shipped

end GraphMpc
