import GraphMpc.Reachability
import GraphMpc.Library.Slices

namespace GraphMpc

open Tabulate Circuit DagList GraphMpc.Valuation

namespace DagList

variable {L : DagList} {conf : ProtocolConfig} {size : ℕ}

theorem rank_lt {u v : ℕ} (hu : u < size) (hvu : L.isV u = true) (hlt : L.src u < L.src v) :
    L.rank size (L.src u) < L.rank size (L.src v) := by
  refine Finset.card_lt_card (Finset.ssubset_iff_of_subset (fun w hw => ?_) |>.mpr ⟨u, ?_, ?_⟩)
  · obtain ⟨hw, hvw, hwu⟩ := Finset.mem_filter.mp hw
    exact Finset.mem_filter.mpr ⟨hw, hvw, BitVec.lt_trans hwu hlt⟩
  · exact Finset.mem_filter.mpr ⟨Finset.mem_range.mpr hu, hvu, hlt⟩
  · exact fun hmem => BitVec.lt_irrefl _ (Finset.mem_filter.mp hmem).2.2

theorem rank_inj {u v : ℕ} (hu : u < size) (hv : v < size) (hvu : L.isV u = true)
    (hvv : L.isV v = true) :
    L.rank size (L.src u) = L.rank size (L.src v) ↔ L.src u = L.src v := by
  refine ⟨fun h => ?_, fun h => by rw [h]⟩
  by_contra hne
  rcases Nat.lt_or_gt_of_ne (fun h => hne (BitVec.eq_of_toNat_eq h)) with hlt | hlt
  · exact absurd h (rank_lt hu hvu (BitVec.lt_def.mpr hlt)).ne
  · exact absurd h (rank_lt hv hvv (BitVec.lt_def.mpr hlt)).ne'

theorem Valid.rank_lt_nodes (hV : L.Valid conf) {v : ℕ} (hv : v < conf.size)
    (hvv : L.isV v = true) : L.rank conf.size (L.src v) < conf.nodes := by
  rw [← hV.nodes, Nat.count_eq_card_filter_range, rank]
  refine Finset.card_lt_card (Finset.ssubset_iff_of_subset (fun w hw => ?_) |>.mpr ⟨v, ?_, ?_⟩)
  · obtain ⟨hw, hvw, -⟩ := Finset.mem_filter.mp hw
    exact Finset.mem_filter.mpr ⟨hw, hvw⟩
  · exact Finset.mem_filter.mpr ⟨Finset.mem_range.mpr hv, hvv⟩
  · exact fun hmem => BitVec.lt_irrefl _ (Finset.mem_filter.mp hmem).2.2

theorem Valid.output_length (hV : L.Valid conf) (inInputOrder : Bool) (d : Ring → Ring) :
    (L.output conf inInputOrder d).length = conf.size := by
  rw [output]
  split
  · exact tab_length ..
  · have hk : ∀ v < conf.size, L.isV v = true → L.surplus conf false v = false :=
      fun _ _ _ => rfl
    have hids : (L.ids conf.size).length = conf.nodes := by
      rw [(hV.arranges hk).ids_eq hV.nodes_le, tab_length]
    rw [List.length_append, List.length_map, List.length_replicate, hids]
    exact Nat.add_sub_cancel' hV.nodes_le

end DagList

theorem SharedList.congr {conf : ProtocolConfig} {g0 g1 : Graph} {E : Listing} {x y : ℕ → Ring}
    (h : SharedList conf g0 g1 E x) (he : ∀ i < conf.size, x i = y i) :
    SharedList conf g0 g1 E y :=
  { h with data := tab_congr he ▸ h.data }

section columns

variable {L : DagList} {conf : ProtocolConfig} {size column : ℕ} {p : Program}

structure ColumnSearch (conf : ProtocolConfig) (p : Program) : Prop where
  initNodes : ∀ column, p.initNodes column =
    some (.single (.setConstVector (oneHot conf.nodes column)) rfl)
  prepare : ∀ i column, p.prepare i column = .arg 0 (by decide)
  apply : ∀ i column, p.apply i column = .single (.add 0 1) rfl
  postMp : ∀ column, p.postMp column = .single (.clip 0) rfl

theorem bfs3Parallel_search (conf : ProtocolConfig) : ColumnSearch conf (bfs3Parallel conf) :=
  ⟨fun _ => rfl, fun _ _ => rfl, fun _ _ => rfl, fun _ => rfl⟩

theorem piR_search (conf : ProtocolConfig) : ColumnSearch conf (piR conf) :=
  ⟨fun _ => rfl, fun _ _ => rfl, fun _ _ => rfl, fun _ => rfl⟩

namespace ColumnSearch

variable (h : ColumnSearch conf p)

include h

theorem arithmetic : p.Arithmetic conf.nodes where
  initNodes column b hb := by
    rw [h.initNodes] at hb
    obtain rfl := Option.some.inj hb
    simp [Body.Arithmetic, Body.single, Op.Arithmetic, Shipped.oneHot_length]
  prepare i column := by
    rw [h.prepare]
    exact Deliveries.arg_arithmetic _
  apply i column := by
    rw [h.apply]
    simp [Body.Arithmetic, Body.single, Op.Arithmetic]

theorem starts (x : ℕ → Ring) (d : Ring → Ring) : p.Starts L size x d :=
  Or.inr fun column => by rw [h.initNodes]; rfl

theorem result_eq (hc : column < conf.nodes) (depth : ℕ) (d : Ring → Ring) (id : Ring) :
    p.result L size (L.edgesTo size fun _ => false) column depth d id =
      if (L.restingWalks size (fun id => L.rank size id = column) depth id : Ring) = 0
        then 0 else 1 := by
  have hround : ∀ s i id, p.round L size (L.edgesTo size fun _ => false) column s i id =
      s id + ∑ e ∈ L.edgesTo size (fun _ => false) id, s (L.src e) := fun s i id => by
    rw [Program.round, h.apply, h.prepare]
    rfl
  have hs : ∀ id, p.initial L size column d id =
      (flag (fun id => L.rank size id = column) id : Ring) := fun id => by
    rw [Program.initial, h.initNodes]
    have hget : (oneHot conf.nodes column).getD (L.rank size id) 0 =
        if L.rank size id = column then 1 else 0 := by
      by_cases hr : L.rank size id = column
      · rw [hr, if_pos rfl, List.getD_eq_getElem _ _ (by rwa [Shipped.oneHot_length])]
        simp [oneHot]
      · rw [if_neg hr, oneHot, List.getD_eq_getElem?_getD, List.getElem?_set_ne (Ne.symm hr),
          List.getElem?_replicate]
        split <;> rfl
    refine hget.trans ?_
    by_cases hr : L.rank size id = column <;> simp [flag, hr]
  rw [restingWalks_eq, ← sum_rounds hround hs depth id, Program.result, h.postMp]
  rfl

end ColumnSearch

def walksFromRank (L : DagList) (conf : ProtocolConfig) (rank : ℕ) (id : Ring) : Ring :=
  if (L.restingWalks conf.size (fun id => L.rank conf.size id = rank) conf.depth id : Ring) = 0
    then 0 else 1

end columns

namespace Shipped

variable {L : DagList} {conf : ProtocolConfig} {inInputOrder : Bool} {circ : Circuit}
  {g0 g1 : Graph} {x : ℕ → Ring}

theorem bfs_from (hc : bfs.circuit conf inInputOrder = .ok circ) (h0 : 0 < conf.size)
    (hV : L.Valid conf) (hC : L.Closed conf.size) (g : Streams) {u : ℕ} (hu : u < conf.size)
    (hvu : L.isV u = true) (hin : SharedList conf g0 g1 (L.listing conf.bits)
      (L.data (indicator fun id => id = L.src u))) :
    ∃ r, secureRun conf circ g0 g1 g = some r ∧ r.output = L.output conf inInputOrder
      (walksFromRank L conf (L.rank conf.size (L.src u))) := by
  refine bfs_output hc h0 hV hC g (hin.congr fun e he => ?_)
  simp only [data, indicator, decide_eq_true_eq]
  by_cases hv : L.isV e = true
  · rw [if_pos hv, if_pos hv]
    exact if_congr (rank_inj he hu hv hvu).symm rfl rfl
  · rw [if_neg hv, if_neg hv]

theorem bfs3Parallel_output (hc : bfs3Parallel.circuit conf inInputOrder = .ok circ)
    (h0 : 0 < conf.size) (hV : L.Valid conf) (hC : L.Closed conf.size) (g : Streams)
    (hin : SharedList conf g0 g1 (L.listing conf.bits) x) :
    ∃ r, secureRun conf circ g0 g1 g = some r ∧ r.output = (List.range 3).flatMap fun column =>
      L.output conf inInputOrder (walksFromRank L conf column) := by
  have hn : 3 ≤ conf.nodes := by
    by_contra hlt
    simp [circuit, create, not_le.mp hlt, bind, Except.bind] at hc
  have hk : ∀ v < conf.size, L.isV v = true → (L.directed false).surplus conf false v = false :=
    fun _ _ _ => rfl
  have hE : Program.Summed (L.directed false) conf.size ((L.directed false).surplus conf false)
      ((L.directed false).edgesTo conf.size fun _ => false) :=
    fun _ _ _ => hC.delivered_eq _ _
  have hsearch := bfs3Parallel_search conf
  obtain ⟨r, hr, hout⟩ := hsearch.arithmetic.output_eq hV.nodes_le (hV.nodes_pos hC.sourced h0)
    (evaluable hV.nodes_le bfs3Parallel) hV hk hC.sourced hE g hin (hsearch.starts x fun _ => 0)
    fun _ => rfl
  refine ⟨r, ?_, hout.trans ?_⟩
  · rw [circuit_eq hc]
    exact hr
  · rw [List.flatMap_def]
    refine congrArg List.flatten (List.map_congr_left fun column hcol => ?_)
    have hcol : column < 3 := List.mem_range.mp hcol
    exact DagList.output_congr _ fun v _ _ => hsearch.result_eq (hcol.trans_le hn) _ _ _

theorem piR_output (hc : piR.circuit conf inInputOrder = .ok circ) (h0 : 0 < conf.size)
    (hV : L.Valid conf) (hC : L.Closed conf.size) (g : Streams)
    (hin : SharedList conf g0 g1 (L.listing conf.bits) x) :
    ∃ r, secureRun conf circ g0 g1 g = some r ∧ r.output = L.output conf inInputOrder fun id =>
      ∑ v ∈ (Finset.range conf.size).filter (L.isV · = true),
        walksFromRank L conf (L.rank conf.size id) (L.src v) := by
  have hk : ∀ v < conf.size, L.isV v = true → (L.directed false).surplus conf false v = false :=
    fun _ _ _ => rfl
  have hE : Program.Summed (L.directed false) conf.size ((L.directed false).surplus conf false)
      ((L.directed false).edgesTo conf.size fun _ => false) :=
    fun _ _ _ => hC.delivered_eq _ _
  have hsearch := piR_search conf
  obtain ⟨r, hr, hout⟩ := hsearch.arithmetic.output_sums hV.nodes_le (hV.nodes_pos hC.sourced h0)
    (evaluable hV.nodes_le piR) hV hk hC.sourced hE g hin (hsearch.starts x fun _ => 0) rfl rfl
  refine ⟨r, ?_, hout.trans ?_⟩
  · rw [circuit_eq hc]
    exact hr
  · refine DagList.output_congr _ fun u hu hvu => Finset.sum_congr rfl fun v _ => ?_
    exact hsearch.result_eq (hV.rank_lt_nodes hu hvu) _ _ _

theorem columns_agree (hB : bfs.circuit conf inInputOrder = .ok circ) (h0 : 0 < conf.size)
    (hV : L.Valid conf) (hC : L.Closed conf.size) (g g' : Streams)
    (hin : SharedList conf g0 g1 (L.listing conf.bits) x) {b0 b1 : ℕ → Graph}
    (hb : ∀ u < conf.size, L.isV u = true → SharedList conf (b0 u) (b1 u) (L.listing conf.bits)
      (L.data (indicator fun id => id = L.src u))) :
    ∃ search : ℕ → Result, (∀ u < conf.size, L.isV u = true →
      secureRun conf circ (b0 u) (b1 u) g' = some (search u)) ∧
    (∀ circR, piR.circuit conf inInputOrder = .ok circR →
      ∃ r, secureRun conf circR g0 g1 g = some r ∧ ∀ u < conf.size, L.isV u = true →
        (r.output.getD (L.position conf.size inInputOrder u) 0).toNat =
          ((Finset.range conf.size).filter fun v => L.isV v = true ∧
            (search u).output.getD (L.position conf.size inInputOrder v) 0 = 1).card) ∧
    ∀ circ3, bfs3Parallel.circuit conf inInputOrder = .ok circ3 →
      ∃ r, secureRun conf circ3 g0 g1 g = some r ∧ r.output.length = 3 * conf.size ∧
        ∀ u < conf.size, L.isV u = true → L.rank conf.size (L.src u) < 3 →
          (tab conf.size fun i => r.output.getD (L.rank conf.size (L.src u) * conf.size + i) 0) =
            (search u).output := by
  have hsearch : ∀ u, ∃ r, u < conf.size → L.isV u = true →
      secureRun conf circ (b0 u) (b1 u) g' = some r ∧ r.output = L.output conf inInputOrder
        (walksFromRank L conf (L.rank conf.size (L.src u))) := by
    intro u
    by_cases hu : u < conf.size ∧ L.isV u = true
    · obtain ⟨r, hr⟩ := bfs_from hB h0 hV hC g' hu.1 hu.2 (hb u hu.1 hu.2)
      exact ⟨r, fun _ _ => hr⟩
    · obtain ⟨v, hv, hvv, -⟩ := hC.sourced 0 h0
      obtain ⟨r, -⟩ := bfs_from hB h0 hV hC g' hv hvv (hb v hv hvv)
      exact ⟨r, fun h1 h2 => absurd ⟨h1, h2⟩ hu⟩
  choose search hs using hsearch
  refine ⟨search, fun u hu hvu => (hs u hu hvu).1, fun circR hR => ?_, fun circ3 h3 => ?_⟩
  · obtain ⟨r, hr, hout⟩ := piR_output hR h0 hV hC g hin
    refine ⟨r, hr, fun u hu hvu => ?_⟩
    have hone : ∀ v < conf.size, L.isV v = true →
        ((search u).output.getD (L.position conf.size inInputOrder v) 0 = 1 ↔
          ¬ (L.restingWalks conf.size (fun id => L.rank conf.size id = L.rank conf.size (L.src u))
            conf.depth (L.src v) : Ring) = 0) := fun v hv hvv => by
      rw [(hs u hu hvu).2, hV.output_getD inInputOrder _ hv hvv, walksFromRank]
      split
      · rename_i hz
        exact iff_of_false (by decide) (not_not.mpr hz)
      · rename_i hz
        exact iff_of_true rfl hz
    rw [hout, hV.output_getD inInputOrder _ hu hvu]
    have hsum : ∑ v ∈ (Finset.range conf.size).filter (L.isV · = true),
        walksFromRank L conf (L.rank conf.size (L.src u)) (L.src v) =
          (((Finset.range conf.size).filter fun v => L.isV v = true ∧
            (search u).output.getD (L.position conf.size inInputOrder v) 0 = 1).card : Ring) := by
      rw [← Finset.filter_filter, Finset.card_filter, Nat.cast_sum]
      refine Finset.sum_congr rfl fun v hv => ?_
      obtain ⟨hv, hvv⟩ := Finset.mem_filter.mp hv
      rw [if_congr (hone v (Finset.mem_range.mp hv) hvv) rfl rfl, walksFromRank, ite_not]
      split <;> rfl
    rw [hsum, BitVec.natCast_eq_ofNat, BitVec.toNat_ofNat]
    refine Nat.mod_eq_of_lt (lt_of_le_of_lt ?_ (conf.size_int.trans (by decide)))
    exact (Finset.card_filter_le ..).trans (Finset.card_range _).le
  · obtain ⟨r, hr, hout⟩ := bfs3Parallel_output h3 h0 hV hC g hin
    have hlen : ∀ column < 3, (L.output conf inInputOrder (walksFromRank L conf column)).length =
        conf.size := fun _ _ => hV.output_length _ _
    refine ⟨r, hr, ?_, fun u hu hvu hlt => ?_⟩
    · rw [hout, Slices.length_blocks hlen]
    · rw [(hs u hu hvu).2, hout]
      refine (eq_tab 0 (hV.output_length _ _) fun i hi => ?_).symm
      exact (Slices.getD_blocks 0 hlen hlt hi).symm

theorem triangleConfig_int : 8 < 2 ^ 31 := by decide

def triangleConfig : ProtocolConfig := ⟨8, 3, 2, 2, triangleConfig_int⟩

def triangle : DagList where
  isV e := decide (e < 3)
  src e := ([3, 1, 2, 1, 2, 3, 1, 1] : Vec).getD e 0
  dst e := ([3, 1, 2, 2, 3, 1, 2, 1] : Vec).getD e 0

theorem triangle_valid : triangle.Valid triangleConfig where
  nodes := by decide
  loop := by decide
  src_lt := by decide
  dst_lt := by decide
  distinct := by decide

theorem triangle_closed : triangle.Closed triangleConfig.size := by
  unfold Closed
  decide

def triangleCircuit : Circuit :=
  (build (bfs.program triangleConfig).algorithm
    (Circuit.start triangleConfig 1 false false false)).2

theorem columns_agree_triangle : ∃ search : ℕ → Result,
    (∀ u < triangleConfig.size, triangle.isV u = true →
      secureRun triangleConfig triangleCircuit (triangle.graph triangleConfig
        (indicator fun id => id = triangle.src u)) (blank triangleConfig) countingStreams =
          some (search u)) ∧
    (∃ circR r, piR.circuit triangleConfig false = .ok circR ∧
      secureRun triangleConfig circR (triangle.graph triangleConfig fun _ => 7)
        (blank triangleConfig) countingStreams = some r ∧
      ∀ u < triangleConfig.size, triangle.isV u = true →
        (r.output.getD (triangle.position triangleConfig.size false u) 0).toNat =
          ((Finset.range triangleConfig.size).filter fun v => triangle.isV v = true ∧
            (search u).output.getD (triangle.position triangleConfig.size false v) 0 = 1).card) ∧
    ∃ circ3 r, bfs3Parallel.circuit triangleConfig false = .ok circ3 ∧
      secureRun triangleConfig circ3 (triangle.graph triangleConfig fun _ => 7)
        (blank triangleConfig) countingStreams = some r ∧
      r.output.length = 3 * triangleConfig.size ∧
      ∀ u < triangleConfig.size, triangle.isV u = true →
        triangle.rank triangleConfig.size (triangle.src u) < 3 →
          (tab triangleConfig.size fun i => r.output.getD
            (triangle.rank triangleConfig.size (triangle.src u) * triangleConfig.size + i) 0) =
              (search u).output := by
  obtain ⟨search, hsearch, hR, h3⟩ := columns_agree (bfs_circuit triangleConfig) (by decide)
    triangle_valid triangle_closed countingStreams countingStreams (triangle.shared_graph _ _)
    fun _ _ _ => triangle.shared_graph _ _
  obtain ⟨r, hr, hcount⟩ := hR _ rfl
  obtain ⟨r', hr', hlen, hblock⟩ := h3 _ rfl
  exact ⟨search, hsearch, ⟨_, r, rfl, hr, hcount⟩, _, r', rfl, hr', hlen, hblock⟩

end Shipped

end GraphMpc
