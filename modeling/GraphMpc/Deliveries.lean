import GraphMpc.GraphSemantics

namespace GraphMpc

open Tabulate Circuit GraphMpc.Valuation

-- one round that puts out the update of every node
def updateProgram (prepare : Body 1) : Program where
  columns := 1
  initNodes _ := none
  prepare _ _ := prepare
  apply _ _ := .arg 1 Nat.one_lt_two
  postMp _ := .arg 0 Nat.zero_lt_one
  columnSums := false

def updateCircuit (conf : ProtocolConfig) (prepare : Body 1) (inInputOrder reverse : Bool) :
    Circuit :=
  (build (updateProgram prepare).algorithm (start conf 1 inInputOrder reverse false)).2

namespace DagList

variable {L : DagList} {conf : ProtocolConfig} {surplus : ℕ → Bool} {A : Arrangement conf}

def position (L : DagList) (size : ℕ) (inInputOrder : Bool) (v : ℕ) : ℕ :=
  if inInputOrder then v else L.rank size (L.src v)

def message (L : DagList) (size : ℕ) (prepare : Body 1) (d : Ring → Ring) (id : Ring) : Ring :=
  prepare.onNode (L.rank size id) [d id]

-- the edges to ids of no node entry that fall between the node and its predecessor
def strays (L : DagList) (size : ℕ) (id : Ring) : Finset ℕ :=
  (Finset.range size).filter fun e => L.isV e = false ∧ L.dst e ≠ id ∧ L.Delivers size e id

-- every node receives the messages of exactly the edges that point to it
def Attributed (L : DagList) (size : ℕ) (inInputOrder : Bool) (m : Ring → Ring) (out : Vec) :
    Prop :=
  ∀ v < size, L.isV v = true → out.getD (L.position size inInputOrder v) 0 =
    ∑ e ∈ L.edgesTo size (fun _ => false) (L.src v), m (L.src e)

theorem Valid.output_getD (hV : L.Valid conf) (inInputOrder : Bool) (d : Ring → Ring) {v : ℕ}
    (hv : v < conf.size) (hvv : L.isV v = true) :
    (L.output conf inInputOrder d).getD (L.position conf.size inInputOrder v) 0 = d (L.src v) := by
  cases inInputOrder with
  | true =>
    simp only [output, position, if_true]
    rw [tab_getD_lt _ _ hv, data, if_pos hvv]
  | false =>
    have hk : ∀ v < conf.size, L.isV v = true → L.surplus conf false v = false := fun _ _ _ => rfl
    have hA := hV.arranges hk
    have hvn := (hA.node v hv).mp hvv
    simp only [output, position, Bool.false_eq_true, if_false]
    rw [hA.ids_eq hV.nodes_le, tab_map, ← hA.vtx_eq hv hvv,
      List.getD_append _ _ _ _ (by simpa using hvn),
      tab_getD_lt _ _ hvn, Function.comp_apply, Equiv.symm_apply_apply]

theorem delivered_sum (L : DagList) (size : ℕ) (id : Ring) (m : ℕ → Ring) :
    ∑ e ∈ L.delivered size (fun _ => false) id, m e =
      ∑ e ∈ L.edgesTo size (fun _ => false) id, m e + ∑ e ∈ L.strays size id, m e := by
  have hunion : L.delivered size (fun _ => false) id =
      L.edgesTo size (fun _ => false) id ∪ L.strays size id := by
    ext e
    simp only [delivered, edgesTo, strays, Finset.mem_filter, Finset.mem_union, true_and]
    by_cases he : L.dst e = id
    · have hd : L.Delivers size e id := ⟨he ▸ BitVec.le_refl _, fun _ _ _ hlt => he ▸ hlt⟩
      simp [he, hd]
    · simp [he]
  have hdisj : Disjoint (L.edgesTo size (fun _ => false) id) (L.strays size id) := by
    rw [edgesTo, strays, Finset.disjoint_filter]
    exact fun e _ h1 h2 => h2.2.1 h1.2.2
  rw [hunion, Finset.sum_union hdisj]

end DagList

namespace Deliveries

open DagList

variable {L : DagList} {conf : ProtocolConfig} {prepare : Body 1} {g0 g1 : Graph}

theorem arg_arithmetic (nodes : ℕ) : (Body.arg 0 (by decide) : Body 1).Arithmetic nodes := by
  simp [Body.Arithmetic, Body.arg]

theorem update_arithmetic (hp : prepare.Arithmetic conf.nodes) :
    (updateProgram prepare).Arithmetic conf.nodes where
  initNodes _ _ h := by cases h
  prepare _ _ := hp
  apply _ _ := by simp [updateProgram, Body.Arithmetic, Body.arg]

theorem update_output (inInputOrder reverse : Bool) (hd : conf.depth = 1) (h0 : 0 < conf.size)
    (hp : prepare.Arithmetic conf.nodes) (hV : L.Valid conf)
    (hsrc : (L.directed reverse).Sourced conf.size) (d : Ring → Ring)
    (g : Streams) (hin : SharedList conf g0 g1 (L.listing conf.bits) (L.data d)) :
    ∃ r, secureRun conf (updateCircuit conf prepare inInputOrder reverse) g0 g1 g = some r ∧
      ∀ v < conf.size, (L.directed reverse).isV v = true →
        r.output.getD ((L.directed reverse).position conf.size inInputOrder v) 0 =
          ∑ e ∈ (L.directed reverse).delivered conf.size (fun _ => false) ((L.directed reverse).src v),
            (L.directed reverse).message conf.size prepare d ((L.directed reverse).src e) := by
  have harith := update_arithmetic hp
  have hV' := hV.directed reverse
  have hk : ∀ v < conf.size, L.isV v = true → (L.directed reverse).surplus conf false v = false :=
    fun _ _ _ => rfl
  have hpos : 0 < conf.nodes := hV'.nodes_pos hsrc h0
  have he := harith.evaluable hV.nodes_le (fun _ => rfl) rfl 1
  obtain ⟨r, hr, hout⟩ := harith.output_eq hV.nodes_le hpos he hV hk hsrc
    (fun _ _ _ => rfl) g hin (Or.inl fun _ _ => rfl) fun _ => rfl
  refine ⟨r, hr, fun v hv hvv => ?_⟩
  rw [hout]
  simp only [max_self, List.range_one, List.map_cons, List.map_nil, List.flatten_cons,
    List.flatten_nil, List.append_nil]
  rw [hV'.output_getD inInputOrder _ hv hvv, Program.result, Program.passed, hd]
  rfl

theorem attributed_iff (inInputOrder reverse : Bool) (hd : conf.depth = 1) (h0 : 0 < conf.size)
    (hp : prepare.Arithmetic conf.nodes) (hV : L.Valid conf)
    (hsrc : (L.directed reverse).Sourced conf.size) (d : Ring → Ring) (g : Streams)
    (hin : SharedList conf g0 g1 (L.listing conf.bits) (L.data d)) :
    ∃ r, secureRun conf (updateCircuit conf prepare inInputOrder reverse) g0 g1 g = some r ∧
      ((L.directed reverse).Attributed conf.size inInputOrder
          ((L.directed reverse).message conf.size prepare d) r.output ↔
        ∀ v < conf.size, (L.directed reverse).isV v = true →
          ∑ e ∈ (L.directed reverse).strays conf.size ((L.directed reverse).src v),
            (L.directed reverse).message conf.size prepare d ((L.directed reverse).src e) = 0) := by
  obtain ⟨r, hr, hout⟩ := update_output inInputOrder reverse hd h0 hp hV hsrc d g hin
  refine ⟨r, hr, forall₂_congr fun v hv => forall_congr' fun hvv => ?_⟩
  rw [hout v hv hvv, delivered_sum, add_eq_left]

def dangling : DagList where
  isV e := e < 2
  src e := if e = 1 then 2 else 0
  dst e := if e = 0 then 0 else if e = 1 then 2 else 1

theorem danglingConfig_int : 3 < 2 ^ 31 := by decide

def danglingConfig : ProtocolConfig := ⟨3, 2, 1, 2, danglingConfig_int⟩

theorem dangling_valid : dangling.Valid danglingConfig where
  nodes := by decide
  loop := by decide
  src_lt := by decide
  dst_lt := by decide
  distinct := by decide

theorem dangling_sourced : dangling.Sourced danglingConfig.size := by
  unfold DagList.Sourced
  decide

def firstNode (id : Ring) : Ring := if id = 0 then 1 else 0

theorem not_attributed : ∃ r, secureRun danglingConfig
    (updateCircuit danglingConfig (.arg 0 (by decide)) false false)
      (dangling.graph danglingConfig firstNode) (blank danglingConfig) countingStreams = some r ∧
        ¬ dangling.Attributed danglingConfig.size false
          (dangling.message danglingConfig.size (.arg 0 (by decide)) firstNode) r.output := by
  obtain ⟨r, hr, hout⟩ := update_output false false rfl (by decide) (arg_arithmetic _)
    dangling_valid dangling_sourced firstNode countingStreams
    (dangling.shared_graph danglingConfig firstNode)
  refine ⟨r, hr, fun h => ?_⟩
  have hone := (h 1 (by decide) rfl).symm.trans (hout 1 (by decide) rfl)
  revert hone
  decide

theorem attributed_iff_dangling : ∃ r, secureRun danglingConfig
    (updateCircuit danglingConfig (.arg 0 (by decide)) false false)
      (dangling.graph danglingConfig firstNode) (blank danglingConfig) countingStreams = some r ∧
        (dangling.Attributed danglingConfig.size false
            (dangling.message danglingConfig.size (.arg 0 (by decide)) firstNode) r.output ↔
          ∀ v < danglingConfig.size, dangling.isV v = true →
            ∑ e ∈ dangling.strays danglingConfig.size (dangling.src v),
              dangling.message danglingConfig.size (.arg 0 (by decide)) firstNode
                (dangling.src e) = 0) :=
  attributed_iff false false rfl (by decide) (arg_arithmetic _) dangling_valid dangling_sourced
    firstNode countingStreams (dangling.shared_graph danglingConfig firstNode)

end Deliveries

end GraphMpc
