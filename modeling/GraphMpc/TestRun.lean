import GraphMpc.JointList
import GraphMpc.ParallelSearch
import GraphMpc.SessionRun

namespace GraphMpc

open Tabulate Refinement Backend Circuit GraphMpc.Graph GraphMpc.Valuation

namespace Graph

def dagList (g : Graph) : DagList where
  isV i := g.isV.getD i 0 ≠ 0
  src i := g.src.getD i 0
  dst i := g.dst.getD i 0

def payload (g : Graph) (i : ℕ) : Ring := g.data.getD i 0

def Flagged (g : Graph) : Prop := ∀ x ∈ g.isV, x = 0 ∨ x = 1

variable {conf : ProtocolConfig} {a b g h : Graph}

theorem Flagged.concat (hg : g.Flagged) (hh : h.Flagged) : (g.concat h).Flagged := by
  intro x hx
  rcases List.mem_append.mp hx with hx | hx
  · exact hg x hx
  · exact hh x hx

theorem toBits_eq {v : Vec} {n nBits j : ℕ} (hv : v.length = n) (hj : j < nBits) :
    (toBits v nBits).getD j [] =
      tab n fun i => if (v.getD i 0).toNat.testBit j then 1 else 0 := by
  refine eq_tab 0 ((toBits_plane hj).trans hv) fun i hi => ?_
  rw [toBits_getD hj (hv ▸ hi), List.getD_eq_getElem _ _ (hv ▸ hi)]
  rfl

theorem Split.sharedList (hs : Split conf.bits a b g) (hg : g.Filled) (hf : g.Flagged)
    (hn : g.size = conf.size) :
    SharedList conf a b (g.dagList.listing conf.bits) g.payload := by
  have hcolumn : ∀ {u w v : Vec} {y : ℕ → Ring}, Shares u w v → v.length = g.size →
      (∀ i < conf.size, v.getD i 0 = y i) → Shares u w (tab conf.size y) := by
    intro u w v y h hl hy
    rwa [eq_tab 0 (hl.trans hn) hy] at h
  refine ⟨⟨hs.planes.1, hs.planes.2.1, hs.planes.2.2.1, hs.planes.2.2.2, tab_length ..,
      tab_length ..⟩,
    fun j hj => ?_, fun j hj => ?_, hcolumn hs.src hg.src fun _ _ => rfl,
    hcolumn hs.dst hg.dst fun _ _ => rfl, hcolumn hs.isV hg.isV fun i hi => ?_,
    hcolumn hs.data hg.data fun _ _ => rfl⟩
  · have hbits := hs.srcBits j hj
    rw [toBits_eq (hg.src.trans hn) hj] at hbits
    rwa [DagList.listing, tab_getD_lt _ _ hj]
  · have hbits := hs.dstBits j hj
    rw [toBits_eq (hg.dst.trans hn) hj] at hbits
    rwa [DagList.listing, tab_getD_lt _ _ hj]
  · have hi : i < g.isV.length := by rwa [hg.isV, hn]
    have hflag := hf g.isV[i] (List.getElem_mem hi)
    simp only [DagList.listing, dagList, List.getD_eq_getElem _ _ hi]
    rcases hflag with h | h <;> simp [h]

def Splits (nBits : ℕ) (generator : GraphGenerator) (g : Graph) : Prop :=
  ∀ rng, ∃ s rng', generator rng rng = some (s, rng', rng') ∧ Split nBits (s .p0) (s .p1) g

def shareOne (nBits : ℕ) (sender : Party) (gs : Party → Graph) : GraphGenerator :=
  fun rng0 rng1 => some (shareFrom nBits sender gs rng0 rng1)

theorem shareOne_splits {sender : Party} (hs : sender ≠ .d) {gs : Party → Graph}
    (hg : (gs sender).Filled) (nBits : ℕ) :
    Splits nBits (shareOne nBits sender gs) (gs sender) := by
  intro rng
  obtain ⟨hsplit, hstep⟩ := @shareFrom_split nBits sender hs gs hg rng
  refine ⟨_, (shareFrom nBits sender gs rng rng).2.2, congrArg some ?_, hsplit⟩
  exact Prod.ext rfl (Prod.ext hstep rfl)

-- the loops of benchmark_graph, from index lo to index hi
def nodeEntries (lo hi : ℕ) : List Entry :=
  (List.range' lo (hi - lo)).map fun i => ⟨BitVec.ofNat 32 (i + 1), BitVec.ofNat 32 (i + 1), 1, 0⟩

def edgeEntries (lo hi : ℕ) : List Entry :=
  (List.range' lo (hi - lo)).map fun _ => ⟨1, 2, 0, 0⟩

def benchmarkEntries (conf : ProtocolConfig) : Party → List Entry
  | .p0 => nodeEntries 0 (conf.nodes / 2) ++ edgeEntries 0 ((conf.size - conf.nodes) / 2)
  | .p1 => nodeEntries (conf.nodes / 2) conf.nodes ++
      edgeEntries ((conf.size - conf.nodes) / 2) (conf.size - conf.nodes)
  | .d => []

def benchmarkGraph (conf : ProtocolConfig) (id : Party) : Graph :=
  ofEntries (benchmarkEntries conf id)

theorem ofEntries_filled (l : List Entry) : (ofEntries l).Filled := by
  obtain ⟨hsrc, hdst, hisV, hdata, hsize, -⟩ := ofEntries_columns l
  constructor <;> simp [*]

theorem ofEntries_flagged {l : List Entry} (hl : ∀ e ∈ l, e.isV = 0 ∨ e.isV = 1) :
    (ofEntries l).Flagged := by
  intro x hx
  rw [(ofEntries_columns l).2.2.1] at hx
  obtain ⟨e, he, rfl⟩ := List.mem_map.mp hx
  exact hl e he

theorem nodeEntries_count (lo hi : ℕ) : (nodeEntries lo hi).countP (·.isV ≠ 0) = hi - lo := by
  rw [nodeEntries, List.countP_map]
  exact (List.countP_eq_length.mpr fun _ _ => by simp).trans (List.length_range' ..)

theorem edgeEntries_count (lo hi : ℕ) : (edgeEntries lo hi).countP (·.isV ≠ 0) = 0 := by
  rw [edgeEntries, List.countP_map]
  exact List.countP_eq_zero.mpr fun _ _ => by simp

theorem benchmarkGraph_filled (id : Party) :
    (benchmarkGraph conf id).Filled ∧ (benchmarkGraph conf id).Flagged := by
  refine ⟨ofEntries_filled _, ofEntries_flagged fun e he => ?_⟩
  have hnode : ∀ lo hi, e ∈ nodeEntries lo hi → e.isV = 0 ∨ e.isV = 1 := by
    intro lo hi he
    obtain ⟨i, -, rfl⟩ := List.mem_map.mp he
    exact Or.inr rfl
  have hedge : ∀ lo hi, e ∈ edgeEntries lo hi → e.isV = 0 ∨ e.isV = 1 := by
    intro lo hi he
    obtain ⟨i, -, rfl⟩ := List.mem_map.mp he
    exact Or.inl rfl
  cases id with
  | p0 | p1 => exact (List.mem_append.mp he).elim (hnode _ _) (hedge _ _)
  | d => cases he

theorem benchmarkGraph_size (id : Party) :
    (benchmarkGraph conf id).size = (benchmarkEntries conf id).length :=
  (ofEntries_columns _).2.2.2.2.1

theorem benchmarkGraph_nodes (id : Party) :
    (benchmarkGraph conf id).nodes = (benchmarkEntries conf id).countP (·.isV ≠ 0) :=
  (ofEntries_columns _).2.2.2.2.2

theorem benchmarkGraph_parts (hz : conf.nodes ≤ conf.size) :
    (benchmarkGraph conf .p0).size + (benchmarkGraph conf .p1).size = conf.size ∧
      (benchmarkGraph conf .p0).nodes + (benchmarkGraph conf .p1).nodes = conf.nodes := by
  constructor
  · simp only [benchmarkGraph_size, benchmarkEntries, nodeEntries, edgeEntries, List.length_append,
      List.length_map, List.length_range']
    omega
  · simp only [benchmarkGraph_nodes, benchmarkEntries, List.countP_append, nodeEntries_count,
      edgeEntries_count]
    omega

theorem benchmarkGraph_joins (h0 : 0 < conf.nodes) : (benchmarkGraph conf .p1).size ≠ 0 ∧
    ((benchmarkGraph conf .p0).size ≠ 0 ∨ (benchmarkGraph conf .p0).nodes = 0) := by
  have hnodes : (benchmarkGraph conf .p0).nodes = conf.nodes / 2 := by
    simp only [benchmarkGraph_nodes, benchmarkEntries, List.countP_append, nodeEntries_count,
      edgeEntries_count]
    omega
  rw [hnodes]
  simp only [benchmarkGraph_size, benchmarkEntries, nodeEntries, edgeEntries, List.length_append,
    List.length_map, List.length_range']
  omega

end Graph

def Transcript.revealed (t : Transcript) : Party → Vec
  | .p0 => revealVec .p0 t.result0 t.result1
  | .p1 => revealVec .p1 t.result1 t.result0
  | .d => []

namespace Shipped

noncomputable def results (alg : Shipped) (conf : ProtocolConfig) (inInputOrder : Bool)
    (g : Graph) : Vec :=
  let A := ((g.dagList.listing conf.bits).directed alg.reverse).arrangement conf alg.dedup
  ((programResults A (alg.program conf) (alg.columns conf) g.payload).map fun y =>
    tab conf.size (released A inInputOrder y)).flatten

variable {conf : ProtocolConfig} {inInputOrder : Bool} {circ : Circuit} {alg : Shipped}
  {generator : GraphGenerator} {g : Graph}

theorem run_results (hz : conf.nodes ≤ conf.size) (h0 : 0 < conf.nodes)
    (hc : alg.circuit conf inInputOrder = .ok circ) {g0 g1 : Graph}
    (hin : SharedList conf g0 g1 (g.dagList.listing conf.bits) g.payload) {s : Streams} {r : Result}
    (hr : secureRun conf circ g0 g1 s = some r) :
    r.output = alg.results conf inInputOrder g ∧
      Shares r.transcript.result0 r.transcript.result1 (alg.results conf inInputOrder g) := by
  obtain ⟨X, hX⟩ := Program.exists_execution hz (h0.trans_le hz) (fun _ => h0) (evaluable hz alg)
    (circuit_eq hc) s hin
  have hsum : (⟨X.dealer, X.final⟩ : Result).output = alg.results conf inInputOrder g := hX
  have hshares := shares_zipWith (X.output.left.trans X.output.right.symm)
  obtain rfl : r = ⟨X.dealer, X.final⟩ := Option.some.inj (hr.symm.trans X.secureRun_eq)
  exact ⟨hsum, hsum ▸ hshares⟩

theorem splits_run (hz : conf.nodes ≤ conf.size) (h0 : 0 < conf.nodes)
    (hc : alg.circuit conf inInputOrder = .ok circ) (hgen : Splits conf.bits generator g)
    (hg : g.Filled) (hf : g.Flagged) (hn : g.size = conf.size) (s : Streams) :
    ∃ graphs rng r, generator s.rng01 s.rng01 = some (graphs, rng, rng) ∧
      secureRun conf circ (graphs .p0) (graphs .p1) (s.with01 rng) = some r ∧
      Shares r.transcript.result0 r.transcript.result1 (alg.results conf inInputOrder g) := by
  obtain ⟨graphs, rng, hdraw, hsplit⟩ := hgen s.rng01
  have hin := hsplit.sharedList hg hf hn
  obtain ⟨X, -⟩ := Program.exists_execution hz (h0.trans_le hz) (fun _ => h0) (evaluable hz alg)
    (circuit_eq hc) (s.with01 rng) hin
  exact ⟨graphs, rng, _, hdraw, X.secureRun_eq, (run_results hz h0 hc hin X.secureRun_eq).2⟩

section semantics

variable (h0 : 0 < conf.size) (hV : g.dagList.Valid conf) (hC : g.dagList.Closed conf.size)

include h0 hV hC

theorem bfs_results {start : Ring → Bool}
    (hx : ∀ i < conf.size, g.dagList.data (indicator start) i = g.payload i) :
    bfs.results conf inInputOrder g = g.dagList.output conf inInputOrder fun id =>
      if (g.dagList.restingWalks conf.size start conf.depth id : Ring) = 0 then 0 else 1 := by
  obtain ⟨circ, hc⟩ : ∃ circ, bfs.circuit conf inInputOrder = .ok circ := by
    cases inInputOrder <;> exact ⟨_, rfl⟩
  have hin := DagList.shared_graph g.dagList conf (indicator start)
  obtain ⟨r, hr, hout⟩ := bfs_output hc h0 hV hC countingStreams hin
  have hnodes := hV.nodes_pos hC.sourced h0
  rw [← (run_results hV.nodes_le hnodes hc (hin.congr hx) hr).1, hout]

theorem katz_results {weights : Vec} (halg : alg = piM weights ∨ alg = piK weights)
    (hc : alg.circuit conf inInputOrder = .ok circ)
    (hk : ∀ v < conf.size, g.dagList.isV v = true →
      g.dagList.reversed.surplus conf alg.dedup v = false) :
    alg.results conf inInputOrder g = g.dagList.output conf inInputOrder
      (katzScore g.dagList conf.size (g.dagList.reversed.surplus conf alg.dedup) weights) := by
  have hw : weights.length = conf.depth := by
    rcases halg with rfl | rfl
    · exact weights_length (Or.inl hc)
    · exact weights_length (Or.inr hc)
  have hin : SharedList conf
      { g.dagList.graph conf fun _ => 0 with data := tab conf.size g.payload } (DagList.blank conf)
      (g.dagList.listing conf.bits) g.payload :=
    { DagList.shared_graph g.dagList conf fun _ => 0 with data := DagList.shares_blank .. }
  obtain ⟨r, hr, hout⟩ := @katz_output _ _ _ alg.dedup inInputOrder _ _ hw h0 hV hC hk
    countingStreams _ hin
  have hrun : secureRun conf circ
      { g.dagList.graph conf fun _ => 0 with data := tab conf.size g.payload } (DagList.blank conf)
      countingStreams = some r := by
    rw [circuit_eq hc]
    rcases halg with rfl | rfl <;> exact hr
  rw [← (run_results hV.nodes_le (hV.nodes_pos hC.sourced h0) hc hin hrun).1, hout]

end semantics

def testBfsEntries : List Entry :=
  [⟨2, 2, 1, 0⟩, ⟨2, 4, 0, 0⟩, ⟨4, 2, 0, 0⟩, ⟨2, 4, 0, 0⟩, ⟨1, 2, 0, 0⟩, ⟨2, 1, 0, 0⟩,
    ⟨3, 3, 1, 1⟩, ⟨7, 7, 1, 0⟩, ⟨4, 5, 0, 0⟩, ⟨5, 4, 0, 0⟩, ⟨4, 4, 1, 0⟩, ⟨3, 1, 0, 0⟩,
    ⟨1, 3, 0, 0⟩, ⟨5, 5, 1, 0⟩, ⟨6, 6, 1, 0⟩, ⟨1, 3, 0, 0⟩, ⟨3, 1, 0, 0⟩, ⟨3, 2, 0, 0⟩,
    ⟨1, 1, 1, 0⟩, ⟨4, 2, 0, 0⟩, ⟨6, 3, 0, 0⟩]

def testBfsGraph : Graph := ofEntries testBfsEntries

theorem testBfsConfig_int : 21 < 2 ^ 31 := by decide

def testBfsConfig : ProtocolConfig := ⟨21, 7, 2, 4, testBfsConfig_int⟩

def testBfsCircuit : Circuit :=
  (build (bfs.program testBfsConfig).algorithm (Circuit.start testBfsConfig 1 false false false)).2

theorem testBfs_valid : testBfsGraph.dagList.Valid testBfsConfig where
  nodes := by decide
  loop := by decide
  src_lt := by decide
  dst_lt := by decide
  distinct := by decide

theorem testBfs_closed : testBfsGraph.dagList.Closed testBfsConfig.size := by
  unfold DagList.Closed
  decide

theorem testBfs_ids : testBfsGraph.dagList.ids testBfsConfig.size = [1, 2, 3, 4, 5, 6, 7] := by
  have hsorted := @List.pairwise_mergeSort Ring (fun a b => a.toNat ≤ b.toNat)
    (by simp only [decide_eq_true_eq]; omega)
    (by simp only [Bool.or_eq_true, decide_eq_true_eq]; omega)
    (((List.range testBfsConfig.size).filter testBfsGraph.dagList.isV).map testBfsGraph.dagList.src)
  refine List.Perm.eq_of_pairwise (fun a b _ _ hab hba => ?_) hsorted (by decide)
    ((List.mergeSort_perm ..).trans (by decide))
  simp only [decide_eq_true_eq] at hab hba
  exact BitVec.eq_of_toNat_eq (by omega)

theorem testBfs_walks : ([1, 2, 3, 4, 5, 6, 7] : Vec).map (fun id =>
    if (testBfsGraph.dagList.restingWalks 21 (· = 3) 2 id : Ring) = 0 then (0 : Ring) else 1) =
      [1, 1, 1, 1, 0, 0, 0] := by
  simp only [DagList.restingWalks_eq]
  decide +kernel

theorem test_reveals (hz : conf.nodes ≤ conf.size) (h0 : 0 < conf.nodes)
    (hc : alg.circuit conf inInputOrder = .ok circ) {sender : Party} (hs : sender ≠ .d)
    {gs : Party → Graph} (hg : (gs sender).Filled) (hf : (gs sender).Flagged)
    (hn : (gs sender).size = conf.size) (blockSize : ℕ) (s : Streams)
    (rngs rngs' : Party → RandomGenerators) :
    ∃ (t : Transcript) (m : Party → Observed Storage) (d : Party → Observed DiskStorage),
      session blockSize conf circ (shareOne conf.bits sender gs) s
        (fun id => .start (Storage.init (rngs id))) = some (t, m) ∧
      session blockSize conf circ (shareOne conf.bits sender gs) s
        (fun id => .start (DiskStorage.init (rngs' id))) = some (t, d) ∧
      ∀ id, id ≠ .d → t.revealed id = alg.results conf inInputOrder (gs sender) := by
  obtain ⟨graphs, rng, r, hdraw, hr, hshares⟩ :=
    splits_run hz h0 hc (shareOne_splits hs hg conf.bits) hg hf hn s
  obtain rfl := circuit_eq hc
  obtain ⟨⟨t, m⟩, ht, hm⟩ := session_shows conf (alg.program conf) (alg.columns conf)
    inInputOrder alg.reverse alg.dedup blockSize rngs hdraw hr
  obtain ⟨d, hd, -⟩ := session_follows
    (fun id => (disk_mirrors (build_dealable conf (alg.program conf) (alg.columns conf)
      inInputOrder alg.reverse alg.dedup) id).observed [])
    (build_simd (alg.program conf) conf (alg.columns conf) inInputOrder alg.reverse alg.dedup)
    blockSize _ _ _ (fun id => .start (DiskStorage.init (rngs' id)))
    (fun id => ⟨DiskIdle.init (rngs id) (rngs' id), rfl, rfl⟩) _ _ hm
  obtain rfl : t = r.transcript := ht
  refine ⟨_, m, d, hm, hd, fun id hid => ?_⟩
  cases id with
  | p0 => exact revealVec_eq hid hshares
  | p1 => exact revealVec_eq hid hshares.symm
  | d => exact absurd rfl hid

theorem test_bfs_passes :
    ∃ (t : Transcript) (m : Party → Observed Storage) (d : Party → Observed DiskStorage),
      session 3 testBfsConfig testBfsCircuit (shareOne 4 .p0 fun _ => testBfsGraph)
        countingStreams (fun id => .start (Storage.init (countingStreams.generators id))) =
          some (t, m) ∧
      session 3 testBfsConfig testBfsCircuit (shareOne 4 .p0 fun _ => testBfsGraph)
        countingStreams (fun id => .start (DiskStorage.init (countingStreams.generators id))) =
          some (t, d) ∧
      ∀ id, id ≠ .d → (t.revealed id).take 7 = [1, 1, 1, 1, 0, 0, 0] := by
  obtain ⟨t, m, d, hm, hd, hrev⟩ := @test_reveals _ _ _ .bfs (by decide) (by decide)
    (bfs_circuit testBfsConfig) .p0 (by decide) (fun _ => testBfsGraph) (ofEntries_filled _)
    (ofEntries_flagged (by decide : ∀ e ∈ testBfsEntries, e.isV = 0 ∨ e.isV = 1)) rfl 3
    countingStreams countingStreams.generators countingStreams.generators
  refine ⟨t, m, d, hm, hd, fun id hid => ?_⟩
  have hresults := @bfs_results testBfsConfig false testBfsGraph (by decide) testBfs_valid
    testBfs_closed (· = 3) (by decide)
  rw [hrev id hid, hresults, DagList.output, if_neg (by decide), testBfs_ids]
  exact congrArg (· ++ List.replicate 14 (0 : Ring)) testBfs_walks ▸ rfl

-- operator+ is empty for an empty list of P1, and loses the node count of an empty list of P0
structure Joinable (conf : ProtocolConfig) (gs : Party → Graph) : Prop where
  filled : ∀ id, id ≠ .d → (gs id).Filled
  flagged : ∀ id, id ≠ .d → (gs id).Flagged
  joins : (gs .p1).size ≠ 0 ∧ ((gs .p0).size ≠ 0 ∨ (gs .p0).nodes = 0)
  size : (gs .p0).size + (gs .p1).size = conf.size

theorem benchmarkGraph_joinable (hz : conf.nodes ≤ conf.size) (h0 : 0 < conf.nodes) :
    Joinable conf (benchmarkGraph conf) where
  filled id _ := (benchmarkGraph_filled id).1
  flagged id _ := (benchmarkGraph_filled id).2
  joins := benchmarkGraph_joins h0
  size := (benchmarkGraph_parts hz).1

def Computes (alg : Shipped) (conf : ProtocolConfig) (inInputOrder : Bool) (circ : Circuit)
    (gs : Party → Graph) (blockSize : ℕ) (ss : List Streams) (rngs : Party → RandomGenerators) :
    Prop :=
  ∃ (ts : List Transcript) (m : Party → Observed Storage) (d : Party → Observed DiskStorage),
    ts.length = ss.length ∧
    benchmark blockSize conf (shareBoth conf.bits gs) circ ss
      (fun id => .start (Storage.init (rngs id))) = some (ts, m) ∧
    benchmark blockSize conf (shareBoth conf.bits gs) circ ss
      (fun id => .start (DiskStorage.init (rngs id))) = some (ts, d) ∧
    ∀ t ∈ ts, Shares t.result0 t.result1
      (alg.results conf inInputOrder ((gs .p0).concat (gs .p1)))

theorem Joinable.computes {gs : Party → Graph} (hj : Joinable conf gs)
    (hz : conf.nodes ≤ conf.size) (h0 : 0 < conf.nodes)
    (hc : alg.circuit conf inInputOrder = .ok circ) (blockSize : ℕ) (ss : List Streams)
    (rngs : Party → RandomGenerators) :
    Computes alg conf inInputOrder circ gs blockSize ss rngs := by
  have hg0 := hj.filled .p0 (by decide)
  have hg1 := hj.filled .p1 (by decide)
  have hflagged := (hj.flagged .p0 (by decide)).concat (hj.flagged .p1 (by decide))
  have hrun := fun s => splits_run hz h0 hc
    (fun rng => shareBoth_split hg0 hg1 hj.joins conf.bits rng) (hg0.concat hg1) hflagged hj.size s
  obtain rfl := circuit_eq hc
  obtain ⟨shown, hshown, hall⟩ := @sessions_show conf (alg.program conf) (alg.columns conf)
    inInputOrder alg.reverse alg.dedup (shareBoth conf.bits gs)
    (fun t => Shares t.result0 t.result1
      (alg.results conf inInputOrder ((gs .p0).concat (gs .p1))))
    blockSize ss (fun s _ => hrun s) rngs
  obtain ⟨⟨m, hm, -⟩, d, hd, -⟩ := benchmark_shows conf (alg.program conf) (alg.columns conf)
    inInputOrder alg.reverse alg.dedup hshown
  refine ⟨shown.map Prod.fst, m, d, ?_, hm, hd, fun t ht => ?_⟩
  · rw [List.length_map, hshown.length_eq]
  · obtain ⟨q, hq, rfl⟩ := List.mem_map.mp ht
    exact hall q hq

theorem benchmark_computes (hz : conf.nodes ≤ conf.size) (h0 : 0 < conf.nodes)
    (hc : alg.circuit conf inInputOrder = .ok circ) (blockSize : ℕ) (ss : List Streams)
    (rngs : Party → RandomGenerators) :
    (∀ gs, Joinable conf gs → Computes alg conf inInputOrder circ gs blockSize ss rngs) ∧
      Computes alg conf inInputOrder circ (benchmarkGraph conf) blockSize ss rngs :=
  ⟨fun _ hj => hj.computes hz h0 hc blockSize ss rngs,
    (benchmarkGraph_joinable hz h0).computes hz h0 hc blockSize ss rngs⟩

theorem benchmark_computes_halves : ((benchmarkGraph testBfsConfig .p0).size = 10 ∧
    (benchmarkGraph testBfsConfig .p1).size = 11) ∧
    (∀ gs, Joinable testBfsConfig gs → Computes bfs testBfsConfig false testBfsCircuit gs 3
      [countingStreams, countingStreams] countingStreams.generators) ∧
    Computes bfs testBfsConfig false testBfsCircuit (benchmarkGraph testBfsConfig) 3
      [countingStreams, countingStreams] countingStreams.generators :=
  ⟨by decide, benchmark_computes (by decide) (by decide) (bfs_circuit testBfsConfig) 3
    [countingStreams, countingStreams] countingStreams.generators⟩

end Shipped

end GraphMpc
