import GraphMpc.GraphSemantics
import GraphMpc.Shapes
import GraphMpc.SortedOrders

namespace GraphMpc

open Tabulate StableOrder Circuit GraphMpc.Valuation

def sortInputs (k : ℕ) : Build ℕ := do
  let bitKeys ← (List.range k).mapM fun _ => input
  let order ← sort bitKeys k
  levelOrder
  return order

def sortCircuit (conf : ProtocolConfig) (k : ℕ) : Circuit := (sortInputs k (init conf 1)).2

def sortWire (conf : ProtocolConfig) (k : ℕ) : ℕ := (sortInputs k (init conf 1)).1

structure SharedKeys (conf : ProtocolConfig) (g0 g1 : Graph) (keys : List (ℕ → Bool)) : Prop where
  lengths : g0.srcBits.length = keys.length ∧ g1.srcBits.length = keys.length
  bits : ∀ j (h : j < keys.length), Shares (g0.srcBits.getD j []) (g1.srcBits.getD j [])
    (tab conf.size fun i => if keys[j] i then 1 else 0)

section circuit

variable {conf : ProtocolConfig} {keys : List (ℕ → Bool)} {m : ℕ}

def keyInputs (conf : ProtocolConfig) (k : ℕ) : Circuit := addInputs k (init conf 1)

theorem keyInputs_built (conf : ProtocolConfig) (m : ℕ) : Built (keyInputs conf (m + 1)) where
  wires := addInputs_wires (c := init conf 1) rfl _
  laid := inputGates_laid conf.nodes (m + 1)
  pos := Nat.succ_pos _

theorem keyInputs_wires (conf : ProtocolConfig) (m : ℕ) :
    ∀ x ∈ 0 :: List.range' 1 m, Wire (keyInputs conf (m + 1)).gates x := by
  intro x hx
  have hx : x ∈ List.range' 0 (m + 1) := hx
  rw [List.mem_range'_1] at hx
  exact ⟨_, inputGate_mem hx.1 hx.2, rfl, by simp⟩

theorem sortInputs_run (conf : ProtocolConfig) (m : ℕ) : sortInputs (m + 1) (init conf 1) =
    ((sort (0 :: List.range' 1 m) (m + 1) (keyInputs conf (m + 1))).1,
      (levelOrder (sort (0 :: List.range' 1 m) (m + 1) (keyInputs conf (m + 1))).2).2) := by
  have hinputs := inputs_run (c := init conf 1) rfl (List.range (m + 1))
  rw [List.length_range] at hinputs
  simp only [sortInputs, bind_run, hinputs, pure_run]
  rfl

structure SortGates (conf : ProtocolConfig) (m : ℕ) (c : Circuit) (out : ℕ) (L : List Gate) :
    Prop where
  grows : Grows (keyInputs conf (m + 1)) c L
  wire : Wire c.gates out
  plain : Plain L
  inner : ∀ f ∈ L, f.type ≠ .input
  sorting : ∀ G, WellFormed conf.nodes G → L ⊆ G → ∀ f ∈ L, Sorting G m f
  values : ∀ V : Valuation conf, L ⊆ V.gates → ∀ bs,
    List.Forall₂ V.Bits (0 :: List.range' 1 m) bs →
      (∀ f ∈ L, V.Good f) ∧ V.Order out (sortKeys conf.size 1 bs)

theorem sort_gates (conf : ProtocolConfig) (m : ℕ) : ∃ L,
    SortGates conf m (sort (0 :: List.range' 1 m) (m + 1) (keyInputs conf (m + 1))).2
      (sort (0 :: List.range' 1 m) (m + 1) (keyInputs conf (m + 1))).1 L := by
  have hb := keyInputs_built conf m
  have hw := keyInputs_wires conf m
  obtain ⟨L, hg, -, hout, hG⟩ := sort_spec hb hw
  obtain ⟨L', hE, hplain, -, -, hV⟩ := sort_extends conf hb hw
  obtain rfl : L = L' := List.append_cancel_left (hg.gates.symm.trans hE.grows.gates)
  have hidx : (keyInputs conf (m + 1)).shuffleIdx + m = m := Nat.zero_add m
  rw [List.length_range', hidx] at hG
  rw [List.length_range'] at hg hout hV
  have hshapes := (sort_emits (0 :: List.range' 1 m) m (keyInputs conf (m + 1)) _
    ⟨hb.wires, rfl, rfl⟩).shapes
  rw [hg.gates, List.map_append] at hshapes
  have hL : L.map Gate.shape = _ := List.append_cancel_left hshapes
  refine ⟨L, hg, hout, hplain, fun f hf ht => ?_, fun G hwf hL => (hG G hwf hL).2, hV⟩
  have hmem : f.shape ∈ L.map Gate.shape := List.mem_map_of_mem hf
  rw [hL] at hmem
  simp [Gate.shape, sortsShapes, sortShapes, ht] at hmem

namespace SortGates

variable {c : Circuit} {out : ℕ} {L : List Gate} (h : SortGates conf m c out L)

include h

theorem gates : c.gates = inputGates 0 (m + 1) ++ L := h.grows.gates

theorem laid : Laid conf.nodes c.nMults c.gates := by
  have hl := h.grows.built.laid
  rwa [h.grows.nodes] at hl

theorem quiet : ∀ f ∈ c.gates, f.type ≠ .eqz ∧ f.type ≠ .columnSumsToNodes := by
  intro f hf
  rw [h.gates, List.mem_append] at hf
  rcases hf with hf | hf
  · obtain ⟨w, -, rfl⟩ := List.mem_map.mp hf
    simp
  · exact (h.plain f hf).2

theorem levelled : ColumnsLevelled conf.nodes c.gates :=
  fun f hf ht => absurd ht (h.quiet f hf).2

theorem disciplined : ∀ f ∈ c.gates, Disciplined c.gates { dstShuffleIdx := m } f := by
  intro f hf
  have hsub : L ⊆ c.gates := h.gates ▸ List.subset_append_right ..
  have hsort := h.sorting c.gates h.laid.wellFormed hsub
  rw [h.gates, List.mem_append] at hf
  rcases hf with hf | hf
  · obtain ⟨w, -, rfl⟩ := List.mem_map.mp hf
    refine .plain ?_ ?_ ?_ <;> simp
  · exact .of_sorting (hsort f hf) (Nat.le_succ m)

theorem evaluates {V : Valuation conf} (hV : V.gates = c.gates) (hlen : keys.length = m + 1)
    (hinp : ∀ j (hj : j < keys.length), V.inp j = tab conf.size fun i => if keys[j] i then 1 else 0) :
    Evaluates V ∧ V.Order out (sortKeys conf.size 1 keys) := by
  have hin : inputGates 0 (m + 1) ⊆ V.gates := by
    rw [hV, h.gates]
    exact List.subset_append_left ..
  have hL : L ⊆ V.gates := by
    rw [hV, h.gates]
    exact List.subset_append_right ..
  have hbits : List.Forall₂ V.Bits (0 :: List.range' 1 m) keys := by
    have hrange := forall₂_range (P := V.Bits) (k := 0) keys fun j hj => by
      rw [Nat.zero_add]
      exact (input_holds (hin (inputGate_mem (Nat.zero_le _) (by omega))) (hinp j hj)).2
    rwa [hlen] at hrange
  obtain ⟨good, hord⟩ := h.values V hL keys hbits
  refine ⟨⟨⟨?_, ?_, ?_, ?_, ?_, ?_, ?_⟩, ?_⟩, hord⟩ <;> rw [hV]
  · exact h.laid.wellFormed
  · exact h.laid.sourced
  · exact h.levelled
  · exact h.laid.handled
  · intro f hf
    rw [h.gates, List.mem_append] at hf
    rcases hf with hf | hf
    · obtain ⟨w, -, rfl⟩ := List.mem_map.mp hf
      exact V.kind _ (hin hf) (by simp)
    · exact good f hf
  · exact fun f hf ht => absurd ht (h.quiet f hf).2
  · intro f hf ht
    obtain ⟨g, hg, hgt, hi, hlt⟩ := (h.disciplined f hf).unshuffle ht
    refine ⟨g, hg, hgt, hi, ?_⟩
    rw [layer_eq h.laid.wellFormed hg (by simp [hgt]), layer_eq h.laid.wellFormed hf (by simp [ht])]
    exact hlt
  · exact fun f hf ht => absurd ht (h.quiet f hf).1

end SortGates

end circuit

section run

variable {conf : ProtocolConfig} {keys : List (ℕ → Bool)} {g0 g1 : Graph}

theorem inputs_srcBits (circ : Circuit) (g : Graph) {j : ℕ} (hj : j < g.srcBits.length) :
    (Evaluator.inputs circ g).getD j [] = g.srcBits.getD j [] := by
  simp only [Evaluator.inputs, List.append_assoc, List.getD_eq_getElem?_getD]
  rw [List.getElem?_append_left hj]

theorem SharedKeys.opened_eq (hin : SharedKeys conf g0 g1 keys) (circ : Circuit) {j : ℕ}
    (hj : j < keys.length) : Shares ((Evaluator.inputs circ g0).getD j [])
        ((Evaluator.inputs circ g1).getD j []) (SharedList.opened circ g0 g1 j) ∧
      SharedList.opened circ g0 g1 j = tab conf.size fun i => if keys[j] i then 1 else 0 := by
  have h0 := inputs_srcBits circ g0 (hin.lengths.1 ▸ hj)
  have h1 := inputs_srcBits circ g1 (hin.lengths.2 ▸ hj)
  have hbits := hin.bits j hj
  rw [SharedList.opened, h0, h1]
  exact ⟨shares_zipWith (hbits.left.trans hbits.right.symm), zipWith_shares hbits⟩

theorem SortGates.shares_inputs {m out : ℕ} {c : Circuit} {L : List Gate}
    (h : SortGates conf m c out L) (hm : keys.length = m + 1) (hin : SharedKeys conf g0 g1 keys)
    (circ : Circuit) : ∀ f ∈ c.gates, f.type = .input →
      Shares ((Evaluator.inputs circ g0).getD f.outIdx [])
        ((Evaluator.inputs circ g1).getD f.outIdx []) (SharedList.opened circ g0 g1 f.outIdx) := by
  intro f hf ht
  rw [h.gates, List.mem_append] at hf
  rcases hf with hf | hf
  · obtain ⟨w, hw, rfl⟩ := List.mem_map.mp hf
    rw [List.mem_range'_1] at hw
    have hlt : w < keys.length := by omega
    exact (hin.opened_eq circ hlt).1
  · exact absurd ht (h.inner f hf)

theorem sort_reconstructs (hk : keys ≠ []) (hin : SharedKeys conf g0 g1 keys) (g : Streams) :
    Reconstructs conf (sortCircuit conf keys.length) g0 g1 g (sortWire conf keys.length)
      (positions conf.size (binary keys)) := by
  obtain ⟨m, hm⟩ := Nat.exists_eq_succ_of_ne_zero (List.length_pos_iff.mpr hk).ne'
  obtain ⟨L, h⟩ := sort_gates conf m
  rw [sortCircuit, sortWire, hm, sortInputs_run]
  generalize sort (0 :: List.range' 1 m) (m + 1) (keyInputs conf (m + 1)) = r at *
  have hcirc : (levelOrder r.2).2.circ = layersOf r.2.gates := rfl
  obtain ⟨X, hX⟩ := evaluates_execution h.laid (dealable_layers conf h.laid h.disciplined)
    h.levelled hcirc g (h.shares_inputs hm hin _)
    fun V hV hinp => (h.evaluates hV hm fun j hj => hinp ▸ (hin.opened_eq _ hj).2).1
  obtain ⟨-, hord⟩ := h.evaluates hX hm fun j hj => X.inputs ▸ (hin.opened_eq _ hj).2
  exact X.reconstructs (hX ▸ h.wire)
    (hord.holds_positions (sortKeys_sorts (.one _) (.one _) keys))

end run

section orders

variable (conf : ProtocolConfig) (alg : Shipped) (columns : ℕ) (inInputOrder reverse : Bool)
  (L : DagList) (g0 g1 : Graph) (g : Streams)

def shippedCircuit (dedup : Bool) : Circuit :=
  (build (alg.program conf).algorithm (start conf columns inInputOrder reverse dedup)).2

structure OrdersByKey : Prop where
  src : Reconstructs conf (shippedCircuit conf alg columns inInputOrder reverse false) g0 g1 g
    (orderWires conf columns inInputOrder reverse false).srcOrder
    (positions conf.size (L.directed reverse).srcKey)
  dst : Reconstructs conf (shippedCircuit conf alg columns inInputOrder reverse false) g0 g1 g
    (orderWires conf columns inInputOrder reverse false).dstOrder
    (positions conf.size (L.directed reverse).dstKey)
  vtx : Reconstructs conf (shippedCircuit conf alg columns inInputOrder reverse false) g0 g1 g
    (orderWires conf columns inInputOrder reverse false).vtxOrder
    (positions conf.size (L.directed reverse).vtxKey)

structure OrdersByFlag (msbs : ℕ) (flag : ℕ → Bool) : Prop where
  srcBits : (flaggedInputs conf columns inInputOrder reverse true).srcOrderBits.getLast? = some msbs
  dstBits : (flaggedInputs conf columns inInputOrder reverse true).dstOrderBits.getLast? = some msbs
  flags : Reconstructs conf (shippedCircuit conf alg columns inInputOrder reverse true) g0 g1 g msbs
    (tab conf.size fun i => if flag i then 1 else 0)
  src : Reconstructs conf (shippedCircuit conf alg columns inInputOrder reverse true) g0 g1 g
    (orderWires conf columns inInputOrder reverse true).srcOrder
    (positions conf.size (flagged conf (L.directed reverse).srcKey flag))
  dst : Reconstructs conf (shippedCircuit conf alg columns inInputOrder reverse true) g0 g1 g
    (orderWires conf columns inInputOrder reverse true).dstOrder
    (positions conf.size (flagged conf (L.directed reverse).dstKey flag))

variable {conf alg columns inInputOrder reverse L g0 g1 g} {x : ℕ → Ring}

theorem orders_by_key (hsize : 0 < conf.size) (h0 : 0 < conf.depth → 0 < conf.nodes)
    (hc : alg = .piR → conf.nodes ≤ columns) (hV : L.Valid conf)
    (hin : SharedList conf g0 g1 (L.listing conf.bits) x) :
    OrdersByKey conf alg columns inInputOrder reverse L g0 g1 g := by
  have he := alg.evaluable_of hV.nodes_le columns hc
  have hcirc : shippedCircuit conf alg columns inInputOrder reverse false = _ := rfl
  obtain ⟨hs, hd, hv⟩ := Program.orders_reconstruct hsize h0 he hV hin g hcirc
  have hflag : (L.directed reverse).surplus conf false = fun _ => false := rfl
  rw [hflag, positions_congr fun _ _ => flagged_false] at hs hd
  exact ⟨hs, hd, hv rfl⟩

theorem orders_by_flag (hsize : 0 < conf.size) (h0 : 0 < conf.depth → 0 < conf.nodes)
    (hc : alg = .piR → conf.nodes ≤ columns) (hV : L.Valid conf)
    (hin : SharedList conf g0 g1 (L.listing conf.bits) x) :
    ∃ msbs flag, OrdersByFlag conf alg columns inInputOrder reverse L g0 g1 g msbs flag := by
  have he := alg.evaluable_of hV.nodes_le columns hc
  have hcirc : shippedCircuit conf alg columns inInputOrder reverse true = _ := rfl
  obtain ⟨hs, hd, -⟩ := Program.orders_reconstruct hsize h0 he hV hin g hcirc
  obtain ⟨msbs, h1, h2, hf⟩ := Program.flags_reconstruct hsize h0 he hV hin g hcirc
  exact ⟨msbs, _, h1, h2, hf, hs, hd⟩

end orders

theorem radix_sort_stable (conf : ProtocolConfig) (hsize : 0 < conf.size) (g : Streams) :
    (∀ (keys : List (ℕ → Bool)) (g0 g1 : Graph), keys ≠ [] → SharedKeys conf g0 g1 keys →
      Reconstructs conf (sortCircuit conf keys.length) g0 g1 g (sortWire conf keys.length)
        (positions conf.size fun i => ∑ j ∈ Finset.range keys.length,
          (keys.getD j (fun _ => false) i).toNat * 2 ^ j)) ∧
    ∀ (alg : Shipped) (columns : ℕ) (inInputOrder reverse : Bool) (L : DagList) (g0 g1 : Graph)
      (x : ℕ → Ring), (alg = .piR → conf.nodes ≤ columns) → (0 < conf.depth → 0 < conf.nodes) →
      L.Valid conf → SharedList conf g0 g1 (L.listing conf.bits) x →
        OrdersByKey conf alg columns inInputOrder reverse L g0 g1 g ∧
        ∃ msbs flag, OrdersByFlag conf alg columns inInputOrder reverse L g0 g1 g msbs flag := by
  refine ⟨fun keys g0 g1 hk hin => ?_, fun alg columns inInputOrder reverse L g0 g1 x hc h0 hV hin =>
    ⟨orders_by_key hsize h0 hc hV hin, orders_by_flag hsize h0 hc hV hin⟩⟩
  rw [← positions_congr fun i _ => OrderedSums.binary_eq_sum keys i]
  exact sort_reconstructs hk hin g

def markedKey : ℕ → Bool := fun i => i = 0

def markedGraph : Graph :=
  { DagList.blank Shipped.pairConfig with srcBits := [tab 2 fun i => if markedKey i then 1 else 0] }

theorem marked_shared :
    SharedKeys Shipped.pairConfig markedGraph (DagList.blank Shipped.pairConfig) [markedKey] := by
  refine ⟨⟨rfl, rfl⟩, fun j hj => ?_⟩
  obtain rfl := Nat.lt_one_iff.mp hj
  exact DagList.shares_blank 2 fun i => if markedKey i then 1 else 0

theorem radix_sort_stable_loop :
    Reconstructs Shipped.pairConfig (sortCircuit Shipped.pairConfig [markedKey].length) markedGraph
        (DagList.blank Shipped.pairConfig) countingStreams
        (sortWire Shipped.pairConfig [markedKey].length)
        (positions Shipped.pairConfig.size fun i => ∑ j ∈ Finset.range [markedKey].length,
          ([markedKey].getD j (fun _ => false) i).toNat * 2 ^ j) ∧
      OrdersByKey Shipped.pairConfig .bfs 1 true false Program.loop
        (Program.loop.graph Shipped.pairConfig fun _ => 7) (DagList.blank Shipped.pairConfig)
        countingStreams ∧
      ∃ msbs flag, OrdersByFlag Shipped.pairConfig .bfs 1 true false Program.loop
        (Program.loop.graph Shipped.pairConfig fun _ => 7) (DagList.blank Shipped.pairConfig)
        countingStreams msbs flag := by
  obtain ⟨hkeys, horders⟩ := radix_sort_stable Shipped.pairConfig (by decide) countingStreams
  exact ⟨hkeys [markedKey] _ _ (by simp) marked_shared,
    horders .bfs 1 true false Program.loop _ _ _ (by simp) (by decide) Program.loop_valid
      (Program.loop.shared_graph _ _)⟩

end GraphMpc
