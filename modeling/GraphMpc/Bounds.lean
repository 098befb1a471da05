import GraphMpc.GraphFile
import GraphMpc.InputRoundTrip
import GraphMpc.Volume

namespace GraphMpc

open Circuit Tabulate Slices InputStream

def custom : Program where
  columns := 1
  initNodes _ := none
  prepare _ _ := .arg 0 Nat.one_pos
  apply _ _ := .arg 0 Nat.two_pos
  postMp _ := .arg 0 Nat.one_pos
  columnSums := false

inductive Selection where
  | shipped (alg : Shipped)
  | custom

section program

variable {conf : ProtocolConfig} {columns : ℕ} {inInputOrder reverse dedup : Bool} {p : Program}
  {circ : Circuit} {g0 g1 : Graph} {E : Listing} {x : ℕ → Ring}

theorem custom_evaluable (conf : ProtocolConfig) : custom.Evaluable conf 1 := by
  refine ⟨⟨?_, ?_⟩, ?_, Or.inr ?_⟩
  all_goals simp [custom, Program.ClipFree, Program.PostClipFree, Program.Fits, Body.ClipFree,
    Body.Fits, Body.arg]

theorem Program.completes_iff (hn : 0 < conf.size) (hz : conf.nodes ≤ conf.size)
    (he : p.Evaluable conf columns)
    (hcirc : circ = (build p.algorithm (start conf columns inInputOrder reverse dedup)).2)
    (g : Streams) (hin : SharedList conf g0 g1 E x) :
    (∃ r, secureRun conf circ g0 g1 g = some r) ↔ (0 < conf.depth → 0 < conf.nodes) := by
  constructor
  · rintro ⟨r, hr⟩ hd
    exact Program.nodes_pos hcirc hr hd
  · intro h0
    obtain ⟨X, -⟩ := Program.exists_execution hz hn h0 he hcirc g hin
    exact ⟨_, X.secureRun_eq⟩

end program

namespace Selection

def program (conf : ProtocolConfig) : Selection → Program
  | shipped alg => alg.program conf
  | custom => GraphMpc.custom

def columns (conf : ProtocolConfig) : Selection → ℕ
  | shipped alg => alg.columns conf
  | custom => 1

def reverse : Selection → Bool
  | shipped alg => alg.reverse
  | custom => false

def dedup : Selection → Bool
  | shipped alg => alg.dedup
  | custom => false

-- a server always provides the outputs in input order
def circuit (conf : ProtocolConfig) : Selection → Except String Circuit
  | shipped alg => alg.circuit conf true
  | custom => do
    let c ← (Circuit.init conf 1).provideOutputsInInputOrder
    return (build GraphMpc.custom.algorithm c).2

def oneHotColumns (conf : ProtocolConfig) : Selection → List ℕ
  | shipped .bfs3Parallel => visited 3
  | shipped .piR => visited conf.nodes
  | _ => []

-- the bounds and indices that depend on nodes and size, in the builder and in the three runs: a
-- step of a run that leaves its vectors has no result
structure InBounds (conf : ProtocolConfig) (sel : Selection) (circ : Circuit) (g0 g1 : Graph)
    (g : Streams) : Prop where
  oneHot : ∀ column ∈ sel.oneHotColumns conf, column < conf.nodes
  duplicates : ∀ f ∈ circ.circ.flatten, f.type = .deduplicationSub → 0 < conf.size
  columnSums : ∀ f ∈ circ.circ.flatten, f.type = .columnSumsToNodes → f.dataParallel ≠ []
  runs : ∃ r, secureRun conf circ g0 g1 g = some r

variable {conf : ProtocolConfig} {sel : Selection} {circ : Circuit} {g0 g1 : Graph} {g : Streams}

theorem circuit_eq (h : sel.circuit conf = .ok circ) : circ = (build (sel.program conf).algorithm
    (start conf (sel.columns conf) true sel.reverse sel.dedup)).2 := by
  cases sel with
  | shipped alg => exact Shipped.circuit_eq h
  | custom => exact (Except.ok.inj h).symm

theorem evaluable (hz : conf.nodes ≤ conf.size) (sel : Selection) :
    (sel.program conf).Evaluable conf (sel.columns conf) := by
  cases sel with
  | shipped alg => exact Shipped.evaluable hz alg
  | custom => exact custom_evaluable conf

theorem bfs3Parallel_nodes (hc : Shipped.bfs3Parallel.circuit conf true = .ok circ) :
    3 ≤ conf.nodes := by
  by_contra h
  rw [Shipped.circuit, Shipped.create, if_pos (not_le.mp h)] at hc
  cases hc

theorem oneHot_lt (hc : sel.circuit conf = .ok circ) (hr : sel = shipped .piR → 0 < conf.nodes) :
    ∀ column ∈ sel.oneHotColumns conf, column < conf.nodes := by
  have hvisited : ∀ n, 0 < n → ∀ column ∈ visited n, column < n := fun n hn column h => by
    rw [visited] at h
    split_ifs at h
    · exact List.mem_range.mp h
    · exact List.mem_singleton.mp h ▸ hn
  intro column h
  cases sel with
  | custom => cases h
  | shipped alg =>
    cases alg with
    | bfs3Parallel => exact (hvisited 3 (Nat.succ_pos 2) column h).trans_le (bfs3Parallel_nodes hc)
    | piR => exact hvisited conf.nodes (hr rfl) column h
    | _ => cases h

theorem sums_nodes (h : sel.columns conf > 1 ∧ (sel.program conf).columnSums = true) :
    0 < conf.nodes := by
  cases sel with
  | custom => exact absurd h.2 Bool.false_ne_true
  | shipped alg =>
    cases alg with
    | piR => exact Nat.zero_lt_of_lt h.1
    | _ => exact absurd h.2 Bool.false_ne_true

theorem columnSums_nodes (hc : sel.circuit conf = .ok circ) {f : Gate}
    (hf : f ∈ circ.circ.flatten) (ht : f.type = .columnSumsToNodes) : 0 < conf.nodes := by
  obtain ⟨gates, hperm, hshapes⟩ := Program.circuit_shapes (circuit_eq hc)
  by_contra h
  have hnone := constructShapes_sums conf (sel.columns conf) true sel.dedup (mt sums_nodes h)
  have hmem : f.shape.idx ∈ idxsOf .columnSumsToNodes (gates.map Gate.shape) :=
    mem_idxsOf.mpr ⟨f.shape, List.mem_map_of_mem (hperm.mem_iff.mp hf), ht, rfl⟩
  rw [hshapes, hnone] at hmem
  exact absurd hmem (Finset.notMem_empty _)

theorem inBounds_iff_nodes (hn : 0 < conf.size) (hz : conf.nodes ≤ conf.size)
    (hc : sel.circuit conf = .ok circ) (g : Streams) {E : Listing} {x : ℕ → Ring}
    (hin : SharedList conf g0 g1 E x) : sel.InBounds conf circ g0 g1 g ↔
      0 < conf.nodes ∨ conf.depth = 0 ∧ sel ≠ shipped .piR := by
  have hcompletes := Program.completes_iff hn hz (sel.evaluable hz) (circuit_eq hc) g hin
  constructor
  · intro h
    rw [or_iff_not_imp_left]
    refine fun h0 => ⟨?_, ?_⟩
    · by_contra hd
      exact h0 (hcompletes.mp h.runs (Nat.pos_of_ne_zero hd))
    · rintro rfl
      have h1 : conf.nodes ≤ 1 := by omega
      have hfirst : 0 ∈ oneHotColumns conf (shipped .piR) := by
        simp [oneHotColumns, visited, h1.not_gt]
      exact h0 (h.oneHot 0 hfirst)
  · intro h
    have hr : sel = shipped .piR → 0 < conf.nodes := fun hs => h.resolve_right fun h => h.2 hs
    have hd : 0 < conf.depth → 0 < conf.nodes := fun hd => h.resolve_right fun h => hd.ne' h.1
    obtain ⟨r, hr'⟩ := hcompletes.mpr hd
    refine ⟨oneHot_lt hc hr, fun _ _ _ => hn, fun f hf ht => ?_, r, hr'⟩
    have hpos := columnSums_nodes hc hf ht
    obtain ⟨wires, v, hv⟩ := secureRun_local hr' hf (Or.inr (Or.inr ht))
    have hlength := localGate_nodes_columns ht hv
    exact List.length_pos_iff.mp (hpos.trans_le hlength)

end Selection

namespace Graph

theorem addListEntry_flags {g : Graph} {src dst isV data : Ring} (hg : ∀ x ∈ g.isV, x = 0 ∨ x = 1)
    (h : isV = 0 ∨ isV = 1) : ∀ x ∈ (g.addListEntry src dst isV data).isV, x = 0 ∨ x = 1 := by
  simp only [addListEntry, List.forall_mem_append, List.forall_mem_singleton]
  exact ⟨hg, h⟩

def Flow.graph : Flow → Graph
  | .ret g => g
  | .next g _ => g

theorem readEntry_flags {uninit : Ring × Ring} {type : Char} {g : Graph} {file : InputStream}
    {flow : Flow} (hg : ∀ x ∈ g.isV, x = 0 ∨ x = 1)
    (h : readEntry uninit type g file = .ok flow) : ∀ x ∈ flow.graph.isV, x = 0 ∨ x = 1 := by
  unfold readEntry at h
  split at h
  · dsimp only at h
    split at h
    · cases h
    · split at h
      · rw [← Except.ok.inj h]
        exact addListEntry_flags hg (Or.inr rfl)
      · split at h
        all_goals
          rw [← Except.ok.inj h]
          exact addListEntry_flags hg (Or.inr rfl)
  · split at h
    · rw [← Except.ok.inj h]
      exact addListEntry_flags hg (Or.inl rfl)
    · cases h

theorem readEntries_flags (uninit : Ring × Ring) (g : Graph) (file : InputStream) {g' : Graph}
    (hg : ∀ x ∈ g.isV, x = 0 ∨ x = 1) (h : readEntries uninit g file = .ok g') :
    ∀ x ∈ g'.isV, x = 0 ∨ x = 1 := by
  fun_induction readEntries uninit g file with
  | case1 g file file' hc he => exact Except.ok.inj h ▸ hg
  | case2 => cases h
  | case3 => cases h
  | case4 g file type file' hc g1 hr =>
    exact Except.ok.inj h ▸ readEntry_flags hg hr
  | case5 g file type file' hc g1 file1 hr ih => exact ih (readEntry_flags hg hr) h

theorem parse_flags {uninit : Ring × Ring} {filename : String} {file : Option (List Char)}
    {g : Graph} (h : parseSimplifiedFormat uninit filename file = .ok g) :
    ∀ x ∈ g.isV, x = 0 ∨ x = 1 := by
  cases file with
  | none => cases h
  | some text => exact readEntries_flags uninit {} _ (by simp) h

end Graph

namespace Client

variable {clients : List Client} {total : ℕ} {conf : ProtocolConfig}

def Parsed (c : Client) : Prop :=
  ∃ uninit filename file, Graph.parseSimplifiedFormat uninit filename file = .ok c.graph

theorem Parsed.flags {c : Client} (h : c.Parsed) : ∀ e ∈ c.list, e.isV = 0 ∨ e.isV = 1 := by
  obtain ⟨uninit, filename, file, h⟩ := h
  have hcolumns := (Graph.ofEntries_columns c.list).2.2.1
  intro e he
  exact Graph.parse_flags h e.isV (hcolumns ▸ List.mem_map_of_mem he)

theorem joint_mem {e : Entry} (h : e ∈ joint clients) : ∃ c ∈ clients, e ∈ c.list := by
  obtain ⟨c, hc, he⟩ := List.mem_flatMap.mp h
  exact ⟨c, (clients.mergeSort_perm _).mem_iff.mp hc, he⟩

end Client

def entryAt (l : List Entry) (i : ℕ) : Entry := l.getD i ⟨0, 0, 0, 0⟩

def listingOf (bits : ℕ) (l : List Entry) : Listing where
  isV i := (entryAt l i).isV ≠ 0
  src i := (entryAt l i).src
  dst i := (entryAt l i).dst
  srcBits := (List.range bits).map fun j i => (entryAt l i).src.getLsbD j
  dstBits := (List.range bits).map fun j i => (entryAt l i).dst.getLsbD j

theorem map_entries (l : List Entry) {n : ℕ} (hn : n = l.length) (f : Entry → Ring) :
    l.map f = tab n fun i => f (entryAt l i) := by
  subst hn
  refine ext_getD 0 (by simp) fun i hi => ?_
  rw [List.length_map] at hi
  rw [tab_getD_lt _ _ hi, entryAt, List.getD_eq_getElem _ _ (by simpa using hi), List.getElem_map,
    List.getD_eq_getElem _ _ hi]

namespace Client

section merged

variable {clients : List Client} {total : ℕ} {conf : ProtocolConfig}
  (hp : Partition (clients.map Client.slice) total)

include hp

theorem sharedList (hfile : ∀ c ∈ clients, c.Parsed) (hsize : conf.size = total) (nodes : ℕ) :
    SharedList conf (InputServer.graphOf conf.bits (packets conf.bits .p0 clients) nodes)
      (InputServer.graphOf conf.bits (packets conf.bits .p1 clients) nodes)
      (listingOf conf.bits (joint clients)) fun i => (entryAt (joint clients) i).data := by
  have hrec := @graphs_reconstruct conf.bits _ _ hp _ rfl
  have hm := fun dst => @packets_sized conf.bits _ _ hp dst
  have hn : conf.size = (joint clients).length := hsize.trans (joint_length hp).symm
  have hplane : ∀ {v : List Vec}, v.length = conf.bits → (∀ w ∈ v, w.length = total) →
      ∀ j < conf.bits, (v.getD j []).length = total := by
    intro v hv hw j hj
    rw [List.getD_eq_getElem _ _ (hv ▸ hj), hw _ (List.getElem_mem _)]
  have hcolumn : ∀ (f : Entry → Ring) {v0 v1 : Vec}, v0.length = total → v1.length = total →
      List.zipWith (· + ·) v0 v1 = (joint clients).map f →
        Shares v0 v1 (tab conf.size fun i => f (entryAt (joint clients) i)) := by
    intro f v0 v1 h0 h1 h
    rw [← map_entries _ hn f, ← h]
    exact shares_zipWith (h0.trans h1.symm)
  have hbits : ∀ (f : ℕ → ℕ → Bool) {j : ℕ}, j < conf.bits →
      ((List.range conf.bits).map f).getD j (fun _ => false) = f j := fun f j hj => by
    rw [List.getD_eq_getElem _ _ (by simpa using hj), List.getElem_map, List.getElem_range]
  refine ⟨⟨(hm .p0).srcBits, (hm .p1).srcBits, (hm .p0).dstBits, (hm .p1).dstBits, by
    simp [listingOf], by simp [listingOf]⟩, fun j hj => ?_, fun j hj => ?_,
    hcolumn _ (hm .p0).src (hm .p1).src hrec.src, hcolumn _ (hm .p0).dst (hm .p1).dst hrec.dst, ?_,
    hcolumn _ (hm .p0).data (hm .p1).data hrec.data⟩
  · simp only [listingOf, hbits _ hj]
    exact hcolumn (fun e => if e.src.getLsbD j then 1 else 0)
      (hplane (hm .p0).srcBits (hm .p0).srcPlanes j hj)
      (hplane (hm .p1).srcBits (hm .p1).srcPlanes j hj) (hrec.srcBits j hj)
  · simp only [listingOf, hbits _ hj]
    exact hcolumn (fun e => if e.dst.getLsbD j then 1 else 0)
      (hplane (hm .p0).dstBits (hm .p0).dstPlanes j hj)
      (hplane (hm .p1).dstBits (hm .p1).dstPlanes j hj) (hrec.dstBits j hj)
  · have hflags : (joint clients).map Entry.isV =
        (joint clients).map fun e => if e.isV ≠ 0 then 1 else 0 := by
      refine List.map_congr_left fun e he => ?_
      obtain ⟨c, hc, hmem⟩ := joint_mem he
      rcases (hfile c hc).flags e hmem with h | h <;> simp [h]
    simp only [listingOf, decide_eq_true_eq]
    exact hcolumn (fun e => if e.isV ≠ 0 then 1 else 0) (hm .p0).isV (hm .p1).isV
      (hrec.isV.trans hflags)

end merged

end Client

namespace Selection

variable {clients : List Client} {total : ℕ} {conf : ProtocolConfig} {asserts : Bool}
  {sel : Selection} {circ : Circuit} {g0 g1 : Graph}

theorem inBounds_iff (hp : Partition (clients.map Client.slice) total)
    (hfile : ∀ c ∈ clients, c.Parsed)
    (h0 : InputServer.recvGraph asserts conf.bits
      (clients.map (Client.channel conf.bits .p0)) = .ok g0)
    (h1 : InputServer.recvGraph asserts conf.bits
      (clients.map (Client.channel conf.bits .p1)) = .ok g1)
    (hsize : conf.size = g0.size) (hnodes : conf.nodes = g0.nodes) (hn : 0 < conf.size)
    (hc : sel.circuit conf = .ok circ) (g : Streams) : sel.InBounds conf circ g0 g1 g ↔
      0 < conf.nodes ∨ conf.depth = 0 ∧ sel ≠ shipped .piR := by
  rw [Client.recvGraph_clients hp (by decide), Except.ok.injEq] at h0 h1
  subst h0 h1
  have hrec := @Client.graphs_reconstruct conf.bits _ _ hp _ rfl
  have hlength := Client.joint_length hp
  rw [hrec.size.1] at hsize
  have hz : conf.nodes ≤ conf.size := by
    rw [hsize, hnodes, hrec.nodes.1]
    exact List.countP_le_length
  exact inBounds_iff_nodes hn hz hc g (Client.sharedList hp hfile (hsize.trans hlength) _)

def oneEntry (e : Entry) : Client where
  list := [e]
  offset := 0
  rng := ⟨fun _ => 5, 0⟩
  nonempty := List.cons_ne_nil _ _

theorem oneEntry_partition (e : Entry) : Partition ([oneEntry e].map Client.slice) 1 := by
  have hslice : Partition [⟨0, 1⟩] 1 := by constructor <;> decide
  exact hslice

def received (e : Entry) (dst : Party) : Graph :=
  InputServer.graphOf 1 (Client.packets 1 dst [oneEntry e])
    ((Client.joint [oneEntry e]).countP (·.isV ≠ 0))

theorem oneEntry_received (e : Entry) {dst : Party} (hd : dst ≠ .d) :
    InputServer.recvGraph true 1 ([oneEntry e].map (Client.channel 1 dst)) = .ok (received e dst) :=
  Client.recvGraph_clients (oneEntry_partition e) hd

theorem received_nodes (e : Entry) (dst : Party) :
    (received e dst).nodes = if e.isV ≠ 0 then 1 else 0 := by
  simp [received, InputServer.graphOf, Client.joint, oneEntry, List.countP_singleton]

def bfsCircuit (conf : ProtocolConfig) : Circuit :=
  (build (bfs.algorithm) (start conf 1 true false false)).2

theorem bfsCircuit_eq (conf : ProtocolConfig) :
    (shipped .bfs).circuit conf = .ok (bfsCircuit conf) := rfl

theorem node_parsed : (oneEntry ⟨1, 1, 1, 0⟩).Parsed := by
  have hfile := Graph.parse_written (0, 0) "graph.txt" [.node 1 0] ['n', ' ', '1']
    (.cons _ _ [] ['n', ' ', '1'] [] (by simp [Blank])
      (.node 'n' [' '] ['1'] 1 rfl Graph.blank_space Graph.decimal_one) (by simp [Graph.Gap])
      (.nil [] (by simp [Blank])))
  exact ⟨_, _, _, hfile⟩

theorem edge_parsed : (oneEntry ⟨1, 1, 0, 0⟩).Parsed := by
  have hfile := Graph.parse_written (0, 0) "graph.txt" [.edge 1 1] ['e', ' ', '1', ' ', '1']
    (.cons _ _ [] ['e', ' ', '1', ' ', '1'] [] (by simp [Blank])
      (.edge 'e' [' '] ['1'] [' '] ['1'] 1 1 rfl Graph.blank_space Graph.decimal_one
        Graph.blank_space (by simp) Graph.decimal_one) (by simp [Graph.Gap])
      (.nil [] (by simp [Blank])))
  exact ⟨_, _, _, hfile⟩

def nodeConfig : ProtocolConfig := ⟨1, 1, 1, 1, Shipped.edgeConfig_int⟩

theorem inBounds_iff_node : (shipped .bfs).InBounds nodeConfig (bfsCircuit nodeConfig)
    (received ⟨1, 1, 1, 0⟩ .p0) (received ⟨1, 1, 1, 0⟩ .p1) countingStreams :=
  (inBounds_iff (oneEntry_partition _) (List.forall_mem_singleton.mpr node_parsed)
    (oneEntry_received _ (by decide)) (oneEntry_received _ (by decide)) rfl
    (received_nodes ⟨1, 1, 1, 0⟩ .p0).symm Nat.one_pos
    (bfsCircuit_eq nodeConfig) countingStreams).mpr (Or.inl Nat.one_pos)

theorem inBounds_edge_only : (oneEntry ⟨1, 1, 0, 0⟩).Parsed ∧
    InputServer.recvGraph true 1 ([oneEntry ⟨1, 1, 0, 0⟩].map (Client.channel 1 .p0)) =
      .ok (received ⟨1, 1, 0, 0⟩ .p0) ∧
    InputServer.recvGraph true 1 ([oneEntry ⟨1, 1, 0, 0⟩].map (Client.channel 1 .p1)) =
      .ok (received ⟨1, 1, 0, 0⟩ .p1) ∧
    Shipped.edgeConfig.size = (received ⟨1, 1, 0, 0⟩ .p0).size ∧
    Shipped.edgeConfig.nodes = (received ⟨1, 1, 0, 0⟩ .p0).nodes ∧
    (shipped .bfs).circuit Shipped.edgeConfig = .ok (bfsCircuit Shipped.edgeConfig) ∧
    ¬ (shipped .bfs).InBounds Shipped.edgeConfig (bfsCircuit Shipped.edgeConfig)
      (received ⟨1, 1, 0, 0⟩ .p0) (received ⟨1, 1, 0, 0⟩ .p1) countingStreams := by
  refine ⟨edge_parsed, oneEntry_received _ (by decide), oneEntry_received _ (by decide), rfl,
    (received_nodes ⟨1, 1, 0, 0⟩ .p0).symm, bfsCircuit_eq _, fun h => ?_⟩
  obtain ⟨r, hr⟩ := h.runs
  exact absurd (Program.nodes_pos (circuit_eq (bfsCircuit_eq _)) hr Nat.one_pos) (Nat.lt_irrefl 0)

end Selection

end GraphMpc
